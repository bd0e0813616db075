import CodeGraph.Lib.Run
import CodeGraph.Pipeline.Correct.JsExports

/-!
# The fan-out over moved re-exports

A run takes the index from `before` to `after`. At a pair that did not move the two forwarding graphs hold the
same (`SameAt`), so a search of `after` that asks no moved pair is also the search of `before`
(`search_congr`), although only the one of `after` is ever made. What is left is to see that the drift of a
file's shape, and for the other files `export_entry_dependents`, miss nothing that the walk reads.
-/

namespace CodeGraph.Pipeline

open CodeGraph.Lib

/-- The index before and after a run over `run`, which was asked for `files` and `deletePaths`. -/
structure RunBetween (before after : Conn) (files deletePaths run : List String) : Prop where
  /-- All files are JS and TS modules. -/
  js : ∀ f, f ∈ before.paths ∨ f ∈ after.paths → isJsModulePath f = true
  /-- A file outside the run is indexed before and after, or at neither time, … -/
  kept : ∀ f, f ∉ run → (f ∈ before.paths ↔ f ∈ after.paths)
  /-- … with the same rows. -/
  same : ∀ f, f ∉ run → f ∈ after.paths →
    before.entryRows f = after.entryRows f ∧ before.exportMap f = after.exportMap f ∧
      before.names f = after.names f
  /-- The files that appear and vanish are those that the run was asked for. -/
  paths : after.paths = afterPaths before files deletePaths
  asked : ∀ f ∈ files, f ∈ run
  deleted : ∀ f ∈ deletePaths, f ∈ run
  dependents : ∀ f ∈ exportEntryDependents before files deletePaths, f ∈ run

/-! ### Maps as lists -/

theorem lookup_filterMap_key {β : Type} (g : String → Option β) (ns : List String) (n : String) :
    (ns.filterMap fun k => (g k).map fun b => (k, b)).lookup n = if n ∈ ns then g n else none := by
  induction ns with
  | nil => rfl
  | cons k ns ih =>
    by_cases hk : n = k
    · subst hk
      cases hg : g n with
      | none =>
        rw [List.filterMap_cons_none (by rw [hg]; rfl), ih, hg]
        simp
      | some b =>
        rw [List.filterMap_cons_some (by rw [hg]; rfl), List.lookup_cons_self]
        simp
    · have hmem : n ∈ k :: ns ↔ n ∈ ns := by simp [hk]
      simp only [hmem]
      cases hg : g k with
      | none => rw [List.filterMap_cons_none (by rw [hg]; rfl), ih]
      | some b =>
        rw [List.filterMap_cons_some (by rw [hg]; rfl), List.lookup_cons, beq_false_of_ne hk]
        exact ih

theorem lookup_eq_of_not_mem_changedKeys {β : Type} [DecidableEq β] {b a : List (String × β)} {n : String}
    (h : n ∉ changedKeys b a) : b.lookup n = a.lookup n := by
  by_contra hne
  have hkeys : n ∉ b.map Prod.fst ++ a.map Prod.fst := by
    intro hmem
    apply h
    rw [changedKeys, List.mem_toFinset, List.mem_filter]
    exact ⟨hmem, by simpa using hne⟩
  -- a name that is a key of neither map is looked up to nothing in both
  have hnone : ∀ l : List (String × β), n ∉ l.map Prod.fst → l.lookup n = none := by
    intro l hl
    rw [List.lookup_eq_none_iff]
    intro p hp
    rw [bne_iff_ne]
    rintro rfl
    exact hl (List.mem_map_of_mem hp)
  rw [List.mem_append, not_or] at hkeys
  exact hne ((hnone b hkeys.1).trans (hnone a hkeys.2).symm)

/-! ### Shapes -/

variable {f : FileExports} {nodes paths : Finset String} {file name : String}

theorem mem_exportedNames_of_entry {e : Entry} (he : e ∈ f.entries) (hn : e.exported = some name) :
    name ∈ f.exportedNames := by
  rw [FileExports.exportedNames, List.mem_dedup]
  exact List.mem_append_left _ (List.mem_filterMap.mpr ⟨e, he, hn⟩)

theorem mem_exportedNames_of_localOf {loc : String} (h : f.localOf name = some loc) :
    name ∈ f.exportedNames := by
  unfold FileExports.localOf at h
  rcases Option.or_eq_some_iff.mp h with h | ⟨-, h⟩
  · obtain ⟨e, he, hloc⟩ := List.exists_of_findSome?_eq_some h
    cases e with
    | localExport exported l =>
      dsimp only at hloc
      split_ifs at hloc with hex
      exact mem_exportedNames_of_entry he (congrArg some hex)
    | indirect exported spec imported => cases hloc
    | star spec => cases hloc
  · obtain ⟨⟨p, n, k⟩, hfind, -⟩ := Option.map_eq_some_iff.mp h
    have hpub : (p, n, k) ∈ f.published ∧ p = name := by
      rcases Option.or_eq_some_iff.mp hfind with hfind | ⟨-, hfind⟩
      · have hcond := List.find?_some hfind
        exact ⟨List.mem_of_find?_eq_some hfind, by simp_all⟩
      · have hcond := List.find?_some hfind
        exact ⟨List.mem_of_find?_eq_some hfind, by simp_all⟩
    rw [FileExports.exportedNames, List.mem_dedup]
    exact List.mem_append_right _ (List.mem_map.mpr ⟨_, hpub.1, hpub.2⟩)

theorem exists_entry_of_indirectOf {e : String × Option String} (h : f.indirectOf name = some e) :
    .indirect name e.1 e.2 ∈ f.entries := by
  obtain ⟨x, hx, he⟩ := List.exists_of_findSome?_eq_some h
  cases x with
  | localExport exported l => cases he
  | star spec => cases he
  | indirect exported spec imported =>
    dsimp only at he
    split_ifs at he with hex
    cases he
    rwa [hex] at hx

/-- The own binding of a shape, by name. -/
theorem lookup_shapeOf_own : (shapeOf f nodes file paths).own.lookup name =
    (f.localOf name).map fun l => (l, decide (l ∈ nodes)) := by
  have h := lookup_filterMap_key (fun n => (f.localOf n).map fun l => (l, decide (l ∈ nodes)))
    f.exportedNames name
  simp only [Option.map_map] at h
  refine Eq.trans h ?_
  cases hl : f.localOf name with
  | none => simp
  | some l => rw [if_pos (mem_exportedNames_of_localOf hl)]

/-- The indirect entry of a shape, by name. -/
theorem lookup_shapeOf_indirect : (shapeOf f nodes file paths).indirect.lookup name =
    (f.indirectOf name).map fun e => (resolveJsSpecifierPath e.1 file paths, e.2) := by
  have h := lookup_filterMap_key
    (fun n => (f.indirectOf n).map fun e => (resolveJsSpecifierPath e.1 file paths, e.2)) f.exportedNames name
  simp only [Option.map_map] at h
  refine Eq.trans h ?_
  cases hi : f.indirectOf name with
  | none => simp
  | some e => rw [if_pos (mem_exportedNames_of_entry (exists_entry_of_indirectOf hi) rfl)]

/-! ### Pairs that did not move -/

/-- Two indices hold the same at a pair: the own binding and whether a node bears its name, the resolved
indirect entry, and the resolved `export *` sources if these are asked. -/
structure SameAt (before after : Conn) (p : String × String) : Prop where
  own : ((FileExports.load before p.1).localOf p.2).map (fun l => (l, decide (l ∈ nodeNames before p.1))) =
    ((FileExports.load after p.1).localOf p.2).map fun l => (l, decide (l ∈ nodeNames after p.1))
  indirect : ((FileExports.load before p.1).indirectOf p.2).map
      (fun e => (resolveJsSpecifierPath e.1 p.1 before.paths, e.2)) =
    ((FileExports.load after p.1).indirectOf p.2).map
      fun e => (resolveJsSpecifierPath e.1 p.1 after.paths, e.2)
  stars : p.2 ≠ "default" → (FileExports.load after p.1).localOf p.2 = none →
    (FileExports.load after p.1).indirectOf p.2 = none →
    (FileExports.load before p.1).starSources p.1 before.paths =
      (FileExports.load after p.1).starSources p.1 after.paths

variable {before after : Conn} {p : String × String}

theorem SameAt.jsNode_eq (h : SameAt before after p) :
    jsNode before before.paths p = jsNode after after.paths p := by
  have hown := h.own
  have hind := h.indirect
  have hstars := h.stars
  unfold jsNode
  generalize (FileExports.load after p.1).localOf p.2 = la at hown hstars ⊢
  generalize (FileExports.load before p.1).localOf p.2 = lb at hown ⊢
  generalize (FileExports.load after p.1).indirectOf p.2 = ia at hind hstars ⊢
  generalize (FileExports.load before p.1).indirectOf p.2 = ib at hind ⊢
  -- the three answers are tried in order, and each is there in both graphs or in neither
  cases la with
  | some l =>
    cases lb with
    | none => cases hown
    | some l' =>
      have hl : l' = l := congrArg Prod.fst (Option.some_inj.mp hown)
      rw [hl]
  | none =>
    cases lb with
    | some l' => cases hown
    | none =>
      cases ia with
      | some e =>
        cases ib with
        | none => cases hind
        | some e' =>
          obtain ⟨hr, hi⟩ := Prod.mk.inj (Option.some_inj.mp hind)
          obtain ⟨spec, imported⟩ := e
          obtain ⟨spec', imported'⟩ := e'
          obtain rfl : imported' = imported := hi
          dsimp only at hr ⊢
          rw [hr]
      | none =>
        cases ib with
        | some e' => cases hind
        | none =>
          dsimp only
          split_ifs with hd
          · rfl
          · rw [hstars hd rfl rfl]

/-- An own binding has a node of its name before the run as after it. -/
theorem SameAt.node_iff (h : SameAt before after p) {loc : String}
    (hl : (FileExports.load after p.1).localOf p.2 = some loc) :
    loc ∈ nodeNames before p.1 ↔ loc ∈ nodeNames after p.1 := by
  have hown := h.own
  rw [hl] at hown
  obtain ⟨l, -, hpair⟩ := Option.map_eq_some_iff.mp hown
  obtain ⟨rfl, hdec⟩ := Prod.mk.inj hpair
  exact decide_eq_decide.mp hdec

/-- The specifier of an entry. -/
def Entry.spec : Entry → Option String
  | .localExport _ _ => none
  | .indirect _ spec _ => some spec
  | .star spec => some spec

theorem spec_of_entryOf {row : EntryRow} {e : Entry} {spec : String} (he : entryOf row = some e)
    (hs : e.spec = some spec) : row.spec = some spec := by
  unfold entryOf at he
  split_ifs at he
  · obtain ⟨exported, -, loc, -, rfl⟩ : ∃ a, row.name = some a ∧ ∃ b, row.target = some b ∧
        Entry.localExport a b = e := by
        simpa [Option.bind_eq_some_iff] using he
    cases hs
  · obtain ⟨exported, -, spec', hspec, rfl⟩ : ∃ a, row.name = some a ∧ ∃ b, row.spec = some b ∧
        Entry.indirect a b row.target = e := by
        simpa [Option.bind_eq_some_iff] using he
    exact hspec.trans hs
  · obtain ⟨spec', hspec, rfl⟩ : ∃ b, row.spec = some b ∧ Entry.star b = e := by
      simpa [Option.bind_eq_some_iff] using he
    exact hspec.trans hs

theorem exists_row_of_entry {conn : Conn} {g spec : String} {e : Entry}
    (he : e ∈ (FileExports.load conn g).entries) (hs : e.spec = some spec) :
    ∃ row ∈ conn.entryRows g, row.spec = some spec := by
  unfold FileExports.load at he
  split_ifs at he
  · obtain ⟨row, hrow, hentry⟩ := List.mem_filterMap.mp he
    exact ⟨row, hrow, spec_of_entryOf hentry hs⟩
  · cases he

/-- Whether a file answers a name without its `export *` sources. -/
def answers (conn : Conn) (g m : String) : Bool :=
  ((FileExports.load conn g).localOf m).isSome || ((FileExports.load conn g).indirectOf m).isSome

/-- What the drift of a file of the run says of a name that did not move. -/
theorem not_moved_iff {conn : Conn} {snap : Snapshot} {ans : String → String → Bool}
    (hp : p.1 ∈ snap.current conn) (hm : movedAt (snap.drift conn) ans p = false) :
    p.2 ∉ (snap.driftOf conn p.1).names ∧
      ((snap.driftOf conn p.1).stars = true → p.2 ≠ "default" → ans p.1 p.2 = true) := by
  have hdrift : snap.drift conn = (snap.current conn).filterMap fun path =>
      (if (snap.driftOf conn path).stars || !decide ((snap.driftOf conn path).names = ∅) then
        some (snap.driftOf conn path) else none).map fun d => (path, d) := by
    unfold Snapshot.drift
    congr 1
    funext path
    dsimp only
    split_ifs <;> rfl
  unfold movedAt at hm
  rw [hdrift, lookup_filterMap_key, if_pos hp] at hm
  generalize snap.driftOf conn p.1 = d at hm ⊢
  split_ifs at hm with hd
  · simp only [Bool.or_eq_false_iff, decide_eq_false_iff_not, Bool.and_eq_false_iff, bne_eq_false_iff_eq,
      Bool.not_eq_false'] at hm
    refine ⟨hm.1, fun hstars hne => ?_⟩
    rcases hm.2 with (h | h) | h
    · rw [hstars] at h
      cases h
    · exact absurd h hne
    · exact h
  · simp only [Bool.or_eq_true, not_or, Bool.not_eq_true, Bool.not_eq_false', decide_eq_true_eq] at hd
    rw [hd.1, hd.2]
    exact ⟨Finset.notMem_empty _, fun h => by cases h⟩

/-- A file that is not in the run stays as it is. -/
theorem foldl_existed {earlier : Finset String} (ps : List String) (s : Finset String) (x : String) :
    x ∈ (ps.map fun p => (p, decide (p ∈ earlier))).foldl (fun paths (path, existed) =>
        if existed then insert path paths else paths.erase path) s ↔
      if x ∈ ps then x ∈ earlier else x ∈ s := by
  induction ps generalizing s with
  | nil => simp
  | cons p ps ih =>
    rw [List.map_cons, List.foldl_cons, ih]
    by_cases hx : x ∈ ps
    · simp [hx]
    · by_cases hxp : x = p
      · subst hxp
        by_cases hb : x ∈ earlier <;> simp [hx, hb]
      · by_cases hb : p ∈ earlier <;> simp [hx, hxp, hb]

section Run

variable {files deletePaths run : List String} (h : RunBetween before after files deletePaths run)

include h

/-- The files before the run, recovered from the current ones and the snapshot. -/
theorem RunBetween.beforePaths_eq : (snapshotJsReexports before run).beforePaths after.paths = before.paths := by
  ext x
  rw [Snapshot.beforePaths, snapshotJsReexports, foldl_existed]
  split_ifs with hx
  · rfl
  · rw [List.mem_dedup, List.mem_filter, not_and] at hx
    constructor
    · intro ha
      by_contra hb
      by_cases hrun : x ∈ run
      · exact hx hrun (h.js x (.inr ha))
      · exact hb ((h.kept x hrun).mpr ha)
    · intro hb
      by_contra ha
      by_cases hrun : x ∈ run
      · exact hx hrun (h.js x (.inl hb))
      · exact ha ((h.kept x hrun).mp hb)

theorem RunBetween.mem_current {g : String} :
    g ∈ (snapshotJsReexports before run).current after ↔ g ∈ run ∧ g ∈ after.paths := by
  rw [Snapshot.current, snapshotJsReexports, List.map_map, List.mem_filter, List.mem_map]
  constructor
  · rintro ⟨⟨x, hx, rfl⟩, ha⟩
    rw [List.mem_dedup, List.mem_filter] at hx
    exact ⟨hx.1, of_decide_eq_true ha⟩
  · rintro ⟨hrun, ha⟩
    refine ⟨⟨g, ?_, rfl⟩, decide_eq_true ha⟩
    rw [List.mem_dedup, List.mem_filter]
    exact ⟨hrun, h.js g (.inr ha)⟩

/-- A file outside the run exports and defines the same before and after. -/
theorem RunBetween.load_eq {g : String} (hg : g ∉ run) (ha : g ∈ after.paths) :
    FileExports.load before g = FileExports.load after g ∧ nodeNames before g = nodeNames after g := by
  obtain ⟨he, hx, hn⟩ := h.same g hg ha
  have hb := (h.kept g hg).mpr ha
  unfold FileExports.load nodeNames
  rw [if_pos hb, if_pos ha, if_pos hb, if_pos ha, he, hx, hn]
  exact ⟨rfl, rfl⟩

/-- The specifiers of a file outside the run resolve as they did. -/
theorem RunBetween.resolve_eq {g spec : String} (hg : g ∉ run) (ha : g ∈ after.paths)
    (hs : ∃ row ∈ after.entryRows g, row.spec = some spec) :
    resolveJsSpecifierPath spec g before.paths = resolveJsSpecifierPath spec g after.paths := by
  by_contra hne
  apply hg
  apply h.dependents
  obtain ⟨row, hrow, hspec⟩ := hs
  have hb := (h.kept g hg).mpr ha
  have hmoved : ¬ (appearing before files = [] ∧ deletePaths.filter isJsModulePath = []) := by
    rintro ⟨happ, hdel⟩
    apply hne
    rw [h.paths, afterPaths, happ, hdel]
    simp
  rw [exportEntryDependents, if_neg hmoved, Finset.mem_filter]
  refine ⟨hb, fun hf => hg (h.asked g hf), fun hd => hg (h.deleted g hd), ?_⟩
  rw [List.any_eq_true]
  refine ⟨spec, ?_, ?_⟩
  · rw [(h.same g hg ha).1]
    exact List.mem_filterMap.mpr ⟨row, hrow, hspec⟩
  · rw [← h.paths]
    exact decide_eq_true hne

/-- At a pair of a file outside the run nothing moved. -/
theorem RunBetween.sameAt_of_not_mem (hp : p.1 ∉ run) (ha : p.1 ∈ after.paths) : SameAt before after p := by
  obtain ⟨hload, hnames⟩ := h.load_eq hp ha
  constructor
  case own => rw [hload, hnames]
  case indirect =>
    rw [hload]
    cases hi : (FileExports.load after p.1).indirectOf p.2 with
    | none => rfl
    | some e =>
      have hrow := exists_row_of_entry (exists_entry_of_indirectOf hi) rfl
      rw [Option.map_some, Option.map_some, h.resolve_eq hp ha hrow]
  case stars =>
    intro _ _ _
    rw [hload]
    unfold FileExports.starSources
    apply List.filterMap_congr
    intro spec hspec
    obtain ⟨e, he, hs⟩ := List.mem_filterMap.mp hspec
    apply h.resolve_eq hp ha (exists_row_of_entry he _)
    cases e with
    | localExport exported loc => cases hs
    | indirect exported spec imported => cases hs
    | star spec' => exact hs

/-- At a pair of a file of the run nothing moved unless its drift says so. -/
theorem RunBetween.sameAt_of_mem (hp : p.1 ∈ run) (ha : p.1 ∈ after.paths)
    (hm : movedAt ((snapshotJsReexports before run).drift after) (answers after) p = false) :
    SameAt before after p := by
  obtain ⟨hnames, hstars⟩ := not_moved_iff (h.mem_current.mpr ⟨hp, ha⟩) hm
  unfold Snapshot.driftOf Shape.drift at hnames hstars
  rw [h.beforePaths_eq] at hnames hstars
  rw [Finset.mem_union, not_or] at hnames
  constructor
  case own =>
    have hown := lookup_eq_of_not_mem_changedKeys hnames.1
    rwa [lookup_shapeOf_own, lookup_shapeOf_own] at hown
  case indirect =>
    have hind := lookup_eq_of_not_mem_changedKeys hnames.2
    rwa [lookup_shapeOf_indirect, lookup_shapeOf_indirect] at hind
  case stars =>
    intro hd hl hi
    by_contra hne
    have hans := hstars (decide_eq_true hne) hd
    rw [answers, hl, hi] at hans
    cases hans

theorem RunBetween.sameAt (ha : p.1 ∈ after.paths)
    (hm : movedAt ((snapshotJsReexports before run).drift after) (answers after) p = false) :
    SameAt before after p := by
  by_cases hp : p.1 ∈ run
  · exact h.sameAt_of_mem hp ha hm
  · exact h.sameAt_of_not_mem hp ha

end Run

/-! ### The walk before the run -/

theorem forall_mem_jsSearch {conn : Conn} (hf : p.1 ∈ conn.paths) :
    ∀ q ∈ (jsSearch conn conn.paths p).2, q.1 ∈ conn.paths := by
  apply forall_mem_search (P := fun q : String × String => q.1 ∈ conn.paths)
  · intro x _ y hy
    have hre := forwards_iff_reExports.mp hy
    cases hre with
    | indirect hl hi hr => exact mem_of_resolveJsSpecifierPath hr
    | star hl hi hd hs =>
      obtain ⟨spec, -, hr⟩ := List.mem_filterMap.mp hs
      exact mem_of_resolveJsSpecifierPath hr
  · exact hf
  · exact fun x hx => absurd hx (Finset.notMem_empty x)

/-- A search after the run that asks no moved pair was the same search before it. -/
theorem jsSearch_eq_of_not_moved {files deletePaths run : List String}
    (h : RunBetween before after files deletePaths run) (hf : p.1 ∈ after.paths)
    (hm : ∀ q ∈ (jsSearch after after.paths p).2,
      movedAt ((snapshotJsReexports before run).drift after) (answers after) q = false) :
    jsSearch before before.paths p = jsSearch after after.paths p ∧
      ∀ g loc, (jsSearch after after.paths p).1 = .one (.binding g loc) →
        (loc ∈ nodeNames before g ↔ loc ∈ nodeNames after g) := by
  have hsame : ∀ q ∈ (jsSearch after after.paths p).2, SameAt before after q :=
    fun q hq => h.sameAt (forall_mem_jsSearch hf q hq) (hm q hq)
  constructor
  · exact search_congr (fun q hq => (hsame q hq).jsNode_eq) (Finset.Subset.refl _)
  · intro g loc hone
    obtain ⟨q, hq, hstop⟩ := exists_stop_of_search hone
    cases jsNode_eq_stop_iff.mp hstop with
    | binding hl => exact (hsame _ hq).node_iff hl

/-! ### The loop over the import edges -/

/-- The loop's caches hold what the walks after the run compute. -/
structure FanOut.Good (conn : Conn) (st : FanOut) : Prop where
  consistent : Consistent conn conn.paths st.walker
  visited : ∀ k seen, st.visited.lookup k = some seen →
    seen = (jsSearch conn conn.paths k).2 ∧ ∀ q ∈ seen, q.1 ∈ st.walker.byFile

variable {conn : Conn} {snap : Snapshot} {st : FanOut}

theorem Consistent.answersWithoutStars {ex : JsExports} {g : String} (h : Consistent conn conn.paths ex)
    (hg : g ∈ ex.byFile) (m : String) : ex.answersWithoutStars g m = answers conn g m := by
  obtain ⟨x, hx⟩ := Option.isSome_iff_exists.mp (AList.lookup_isSome.mpr hg)
  rw [JsExports.answersWithoutStars, hx, h.byFile g x hx]
  rfl

theorem movedAt_congr {drift : List (String × Drift)} {ans ans' : String → String → Bool}
    (h : ans p.1 p.2 = ans' p.1 p.2) : movedAt drift ans p = movedAt drift ans' p := by
  unfold movedAt
  rw [h]

/-- After a visit the pairs that the walk asks are known, and their files loaded. -/
theorem FanOut.Good.visit (h : st.Good conn) (file name : String) :
    (st.visit conn file name).Good conn ∧
      (st.visit conn file name).visited.lookup (file, name) = some (jsSearch conn conn.paths (file, name)).2 ∧
      (st.visit conn file name).out = st.out := by
  unfold FanOut.visit
  split_ifs with hmem
  · obtain ⟨seen, hseen⟩ := Option.isSome_iff_exists.mp (AList.lookup_isSome.mpr hmem)
    refine ⟨h, ?_, rfl⟩
    rw [hseen, (h.visited _ seen hseen).1]
  · have hwalk := walked_walk (maxJsReexportDepth + 1) file name (w := ⟨st.walker, ∅⟩) h.consistent
    unfold JsExports.resolveVisiting
    generalize JsExports.walk conn conn.paths (maxJsReexportDepth + 1) file name ⟨st.walker, ∅⟩ = res
      at hwalk ⊢
    obtain ⟨r, w⟩ := res
    have hseen : w.seen = (jsSearch conn conn.paths (file, name)).2 := hwalk.seen
    refine ⟨⟨hwalk.consistent, fun k seen hk => ?_⟩, ?_, rfl⟩
    · by_cases hkey : k = (file, name)
      · subst hkey
        rw [AList.lookup_insert] at hk
        cases hk
        exact ⟨hseen, fun q hq => hwalk.loaded q hq (Finset.notMem_empty q)⟩
      · rw [AList.lookup_insert_ne hkey] at hk
        obtain ⟨heq, hloaded⟩ := h.visited k seen hk
        exact ⟨heq, fun q hq => hwalk.grows q.1 (hloaded q hq)⟩
    · rw [← hseen]
      exact AList.lookup_insert _

theorem FanOut.Good.pull (h : st.Good conn) (importer : String) : (st.pull importer).Good conn :=
  ⟨h.consistent, h.visited⟩

/-- What it takes for the loop to leave an importer out at one of its import edges. -/
structure LeftAt (conn : Conn) (snap : Snapshot) (r : ImportRow) : Prop where
  file : resolveJsSpecifierPath r.spec r.importer conn.paths =
    resolveJsSpecifierPath r.spec r.importer (snap.beforePaths conn.paths)
  walk : ∀ file, resolveJsSpecifierPath r.spec r.importer conn.paths = some file →
    ¬ (r.targetFile = some file ∧ r.targetName = r.name) →
    (file ∈ snap.current conn → r.name ∉ nodeNames conn file) ∧
      ∀ q ∈ (jsSearch conn conn.paths (file, r.name)).2,
        movedAt (snap.drift conn) (answers conn) q = false

/-- One import edge keeps the caches good and the importers pulled, and pulls its own unless it may be left
out. -/
theorem FanOut.Good.row (h : st.Good conn) (r : ImportRow) :
    (st.row conn snap r).Good conn ∧ st.out ⊆ (st.row conn snap r).out ∧
      (r.name ≠ "<module>" → r.importer ∉ snap.inRun.map Prod.fst → r.importer ∉ (st.row conn snap r).out →
        LeftAt conn snap r) := by
  have hpull : (st.pull r.importer).Good conn ∧ st.out ⊆ (st.pull r.importer).out ∧
      (r.name ≠ "<module>" → r.importer ∉ snap.inRun.map Prod.fst → r.importer ∉ (st.pull r.importer).out →
        LeftAt conn snap r) :=
    ⟨h.pull _, Finset.subset_insert _ _, fun _ _ hout => absurd (Finset.mem_insert_self _ _) hout⟩
  unfold FanOut.row
  dsimp only
  -- an importer that is in the run or out already is passed over
  by_cases hskip : r.name = "<module>" ∨ r.importer ∈ snap.inRun.map Prod.fst ∨ r.importer ∈ st.out
  · rw [if_pos hskip]
    refine ⟨h, Finset.Subset.refl _, fun hname hrun hout => absurd hskip ?_⟩
    rw [not_or, not_or]
    exact ⟨hname, hrun, hout⟩
  rw [if_neg hskip]
  -- a specifier that resolves elsewhere than before pulls the importer in
  by_cases hspec : resolveJsSpecifierPath r.spec r.importer conn.paths =
      resolveJsSpecifierPath r.spec r.importer (snap.beforePaths conn.paths)
  swap
  · rw [if_pos hspec]
    exact hpull
  rw [if_neg (not_not.mpr hspec)]
  cases hnow : resolveJsSpecifierPath r.spec r.importer conn.paths with
  | none =>
    exact ⟨h, Finset.Subset.refl _, fun _ _ _ => ⟨hspec, fun file hfile => by rw [hnow] at hfile; cases hfile⟩⟩
  | some file =>
    have hfile : ∀ g, resolveJsSpecifierPath r.spec r.importer conn.paths = some g → g = file :=
      fun g hg => Option.some_inj.mp (hg.symm.trans hnow)
    dsimp only
    -- the file is the target itself, defines the name now, or is searched for it
    split_ifs with hdirect hdefines hdrift hmoved
    · refine ⟨h, Finset.Subset.refl _, fun _ _ _ => ⟨hspec, fun g hg hn => ?_⟩⟩
      rw [hfile g hg] at hn
      exact absurd hdirect hn
    · exact hpull
    · refine ⟨h, Finset.Subset.refl _, fun _ _ _ => ⟨hspec, fun g hg _ => ?_⟩⟩
      rw [hfile g hg, hdrift]
      exact ⟨fun hcur hname => hdefines ⟨hcur, hname⟩, fun q _ => rfl⟩
    · obtain ⟨hgood, -, hout⟩ := h.visit file r.name
      refine ⟨hgood.pull _, ?_, fun _ _ hn => absurd (Finset.mem_insert_self _ _) hn⟩
      rw [FanOut.pull, hout]
      exact Finset.subset_insert _ _
    · obtain ⟨hgood, hvisited, hout⟩ := h.visit file r.name
      rw [hvisited, Option.getD_some] at hmoved
      refine ⟨hgood, by rw [hout], fun _ _ _ => ⟨hspec, fun g hg _ => ?_⟩⟩
      rw [hfile g hg]
      refine ⟨fun hcur hname => hdefines ⟨hcur, hname⟩, fun q hq => ?_⟩
      have hloaded := (hgood.visited _ _ hvisited).2 q hq
      rw [← movedAt_congr (hgood.consistent.answersWithoutStars hloaded q.2)]
      by_contra htrue
      exact hmoved ⟨q, hq, by simpa using htrue⟩

theorem consistent_foldl_load (fs : List String) {ex : JsExports} (h : Consistent conn conn.paths ex) :
    Consistent conn conn.paths (fs.foldl (JsExports.load conn) ex) := by
  induction fs generalizing ex with
  | nil => exact h
  | cons f fs ih => exact ih (h.load f)

/-- The loop leaves an importer out only where it may. -/
theorem leftAt_of_loop {r : ImportRow} {walker : JsExports} (hw : Consistent conn conn.paths walker)
    (hr : r ∈ conn.importRows) (hname : r.name ≠ "<module>") (hrun : r.importer ∉ snap.inRun.map Prod.fst)
    (hout : r.importer ∉ (conn.importRows.foldl (FanOut.row conn snap) ⟨walker, ∅, ∅⟩).out) :
    LeftAt conn snap r := by
  have hfold : r.importer ∈ (conn.importRows.foldl (FanOut.row conn snap) ⟨walker, ∅, ∅⟩).out ∨
      LeftAt conn snap r := by
    apply foldl_establishes (I := FanOut.Good conn) (P := fun st => r.importer ∈ st.out ∨ LeftAt conn snap r)
    · exact fun s b _ hs => (hs.row b).1
    · rintro s b hs (hmem | hleft)
      · exact .inl ((hs.row b).2.1 hmem)
      · exact .inr hleft
    · exact hr
    · intro s hs
      by_cases hmem : r.importer ∈ (s.row conn snap r).out
      · exact .inl hmem
      · exact .inr ((hs.row r).2.2 hname hrun hmem)
    · exact ⟨hw, fun k seen hk => by cases hk⟩
  exact hfold.resolve_left hout

/-! ### Nothing is missed -/

/-- A name that a file exports resolves the same before and after a run, to a binding that has a node of its name
before if and only if it has one after. -/
def SameResolution (before after : Conn) (file name : String) : Prop :=
  (JsExports.resolveVisiting before before.paths {} file name).1 =
      (JsExports.resolveVisiting after after.paths {} file name).1 ∧
    ∀ g loc, (JsExports.resolveVisiting after after.paths {} file name).1 = .binding g loc →
      (loc ∈ nodeNames before g ↔ loc ∈ nodeNames after g)

theorem resolveVisiting_empty (conn : Conn) (paths : Finset String) (file name : String) :
    (JsExports.resolveVisiting conn paths {} file name).1 = ofVerdict (jsSearch conn paths (file, name)).1 ∧
      (JsExports.resolveVisiting conn paths {} file name).2.1 = (jsSearch conn paths (file, name)).2 := by
  have hempty : Consistent conn paths {} := consistent_empty
  have h := walked_walk (maxJsReexportDepth + 1) file name (w := ⟨{}, ∅⟩) hempty
  exact ⟨h.answer, h.seen⟩

theorem eq_one_of_ofVerdict {v : Verdict JsTarget} {g loc : String} (h : ofVerdict v = .binding g loc) :
    v = .one (.binding g loc) := by
  cases v with
  | one t =>
    cases t with
    | binding g' loc' =>
      obtain ⟨rfl, rfl⟩ := JsResolution.binding.inj h
      rfl
    | namespaceOf g' => cases h
  | missing => cases h
  | many => cases h
  | unknown => cases h

theorem not_mem_inRun {run : List String} {g : String} (hg : g ∉ run) :
    g ∉ (snapshotJsReexports before run).inRun.map Prod.fst := by
  rw [snapshotJsReexports, List.map_map, List.mem_map]
  rintro ⟨x, hx, rfl⟩
  rw [List.mem_dedup, List.mem_filter] at hx
  exact hg hx.1

section Run

variable {files deletePaths run : List String} (h : RunBetween before after files deletePaths run)

include h

theorem RunBetween.sameResolution (hf : file ∈ after.paths)
    (hm : ∀ q ∈ (jsSearch after after.paths (file, name)).2,
      movedAt ((snapshotJsReexports before run).drift after) (answers after) q = false) :
    SameResolution before after file name := by
  obtain ⟨hsearch, hnode⟩ := jsSearch_eq_of_not_moved (p := (file, name)) h hf hm
  refine ⟨?_, fun g loc hr => hnode g loc (eq_one_of_ofVerdict ?_)⟩
  · rw [(resolveVisiting_empty before before.paths file name).1, hsearch,
      (resolveVisiting_empty after after.paths file name).1]
  · rwa [(resolveVisiting_empty after after.paths file name).1] at hr

/-- With no drift, no name gained and no file added or deleted, the files of both times are the same and none
defines a name it did not. -/
theorem RunBetween.quiet (hg : (snapshotJsReexports before run).gained after = false)
    (hall : ((snapshotJsReexports before run).inRun.all fun (p, existed) =>
      existed == decide (p ∈ after.paths)) = true) :
    before.paths = after.paths ∧ ∀ f ∈ after.paths, nodeNames after f ⊆ nodeNames before f := by
  constructor
  · ext x
    by_cases hrun : x ∈ run
    · by_cases hjs : isJsModulePath x = true
      · have hx := List.all_eq_true.mp hall (x, decide (x ∈ before.paths)) (by
          rw [snapshotJsReexports]
          exact List.mem_map.mpr ⟨x, List.mem_dedup.mpr (List.mem_filter.mpr ⟨hrun, hjs⟩), rfl⟩)
        exact decide_eq_decide.mp (beq_iff_eq.mp hx)
      · exact ⟨fun hb => absurd (h.js x (.inl hb)) hjs, fun ha => absurd (h.js x (.inr ha)) hjs⟩
    · exact h.kept x hrun
  · intro f ha
    by_cases hrun : f ∈ run
    · have hf : ¬ (!decide (nodeNames after f ⊆ nodeNames before f)) = true :=
        List.any_eq_false.mp hg f (h.mem_current.mpr ⟨hrun, ha⟩)
      simpa using hf
    · rw [(h.load_eq hrun ha).2]

/-- What holds at an import edge of an importer that is left out. -/
theorem RunBetween.left_out {r : ImportRow} (hr : r ∈ after.importRows) (hname : r.name ≠ "<module>")
    (hrun : r.importer ∉ run) (hout : r.importer ∉ importersOfDrift after (snapshotJsReexports before run)) :
    resolveJsSpecifierPath r.spec r.importer before.paths =
        resolveJsSpecifierPath r.spec r.importer after.paths ∧
      ∀ file, resolveJsSpecifierPath r.spec r.importer after.paths = some file →
        ¬ (r.targetFile = some file ∧ r.targetName = r.name) →
        (r.name ∈ nodeNames after file → r.name ∈ nodeNames before file) ∧
          ∀ q ∈ (jsSearch after after.paths (file, r.name)).2,
            movedAt ((snapshotJsReexports before run).drift after) (answers after) q = false := by
  -- a run that moved no export answers every name as before
  have hquiet : (snapshotJsReexports before run).drift after = [] →
      (snapshotJsReexports before run).gained after = false →
      ((snapshotJsReexports before run).inRun.all fun (p, existed) =>
        existed == decide (p ∈ after.paths)) = true →
      resolveJsSpecifierPath r.spec r.importer before.paths =
          resolveJsSpecifierPath r.spec r.importer after.paths ∧
        ∀ file, resolveJsSpecifierPath r.spec r.importer after.paths = some file →
          ¬ (r.targetFile = some file ∧ r.targetName = r.name) →
          (r.name ∈ nodeNames after file → r.name ∈ nodeNames before file) ∧
            ∀ q ∈ (jsSearch after after.paths (file, r.name)).2,
              movedAt ((snapshotJsReexports before run).drift after) (answers after) q = false := by
    intro hd hg hall
    obtain ⟨hpaths, hnames⟩ := h.quiet hg hall
    rw [hpaths, hd]
    exact ⟨rfl, fun file hfile _ =>
      ⟨fun hn => hnames file (mem_of_resolveJsSpecifierPath hfile) hn, fun q _ => rfl⟩⟩
  unfold importersOfDrift at hout
  -- there are two ways out before the loop, and both are quiet
  split_ifs at hout with hnil hearly
  · have hcur : (snapshotJsReexports before run).current after = [] := by
      rw [Snapshot.current, hnil]
      rfl
    apply hquiet
    · rw [Snapshot.drift, hcur]
      rfl
    · rw [Snapshot.gained, hcur]
      rfl
    · rw [hnil]
      rfl
  · exact hquiet hearly.1 (by simpa using hearly.2.1) hearly.2.2
  · have hleft := leftAt_of_loop (consistent_foldl_load _ consistent_empty) hr hname
      (not_mem_inRun hrun) hout
    have hfile := hleft.file
    rw [h.beforePaths_eq] at hfile
    refine ⟨hfile.symm, fun file hf hn => ⟨fun hnow => ?_, (hleft.walk file hf hn).2⟩⟩
    have ha := mem_of_resolveJsSpecifierPath hf
    by_cases hfr : file ∈ run
    · exact absurd hnow ((hleft.walk file hf hn).1 (h.mem_current.mpr ⟨hfr, ha⟩))
    · rwa [(h.load_eq hfr ha).2]

end Run

/-- The fan-out misses nothing. A walk after the run that asks no moved pair answers as it did before the run. So
an import edge of an importer that is left out has its specifier name the same file before and after, and
unless the edge is bound in that file under the name it imports, the file defines that name only if it did
before and exports it to the same effect. -/
theorem importers_of_drift_complete {before after : Conn} {files deletePaths run : List String}
    (h : RunBetween before after files deletePaths run) :
    (∀ file ∈ after.paths, ∀ name,
      (∀ q ∈ (JsExports.resolveVisiting after after.paths {} file name).2.1,
        movedAt ((snapshotJsReexports before run).drift after) (answers after) q = false) →
      SameResolution before after file name) ∧
    ∀ r ∈ after.importRows, r.name ≠ "<module>" → r.importer ∉ run →
      r.importer ∉ importersOfDrift after (snapshotJsReexports before run) →
      resolveJsSpecifierPath r.spec r.importer before.paths =
          resolveJsSpecifierPath r.spec r.importer after.paths ∧
        ∀ file, resolveJsSpecifierPath r.spec r.importer after.paths = some file →
          r.targetFile = some file ∧ r.targetName = r.name ∨
            (r.name ∈ nodeNames after file → r.name ∈ nodeNames before file) ∧
              SameResolution before after file r.name := by
  constructor
  · intro file hf name hm
    rw [(resolveVisiting_empty after after.paths file name).2] at hm
    exact h.sameResolution hf hm
  · intro r hr hname hrun hout
    obtain ⟨hspec, hwalk⟩ := h.left_out hr hname hrun hout
    refine ⟨hspec, fun file hf => ?_⟩
    by_cases hdirect : r.targetFile = some file ∧ r.targetName = r.name
    · exact .inl hdirect
    · obtain ⟨hdef, hm⟩ := hwalk file hf hdirect
      exact .inr ⟨hdef, h.sameResolution (mem_of_resolveJsSpecifierPath hf) hm⟩

/-- The files of `diamond` once `c.js` exports a function of its own instead of its two sources. -/
def diamondEdited : Conn :=
  { diamond with
    entryRows := fun file =>
      if file = "c.js" then [⟨"local", some "y", some "y", none⟩] else diamond.entryRows file
    names := fun file => if file = "c.js" then {"x", "y"} else diamond.names file }

theorem diamondEdited_run : RunBetween diamond diamondEdited ["c.js"] [] ["c.js"] where
  js f hf := by
    have hpaths : ∀ f ∈ diamond.paths, isJsModulePath f = true := by decide +kernel
    exact hpaths f (hf.elim id id)
  kept _ _ := Iff.rfl
  same f hrun _ := by
    have hf : f ≠ "c.js" := by simpa using hrun
    simp [diamondEdited, hf]
  paths := by decide +kernel
  asked _ hf := hf
  deleted _ hf := by cases hf
  dependents := by decide +kernel

theorem diamondEdited_same_resolution :
    SameResolution diamond diamondEdited "b.js" "x" ∧
      (JsExports.resolveVisiting diamondEdited diamondEdited.paths {} "b.js" "x").1 = .binding "d.js" "x" :=
  ⟨(importers_of_drift_complete diamondEdited_run).1 "b.js" (by decide +kernel) "x" (by decide +kernel),
    by decide +kernel⟩

end CodeGraph.Pipeline
