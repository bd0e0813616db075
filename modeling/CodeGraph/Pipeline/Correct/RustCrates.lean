import CodeGraph.Pipeline.RustCrates

/-!
# A moved file is found

What the index stores of a run's packages is read back by the next one (`lookup_recordFields`), so a package's two
records are compared as if they had never been text. Where both name their modules, a file changes sides only if its
top-level module is in one of the symmetric differences; anywhere else the whole package counts as moved.
-/

namespace CodeGraph.Pipeline.RustCrates

open CodeGraph.Lib

variable {a b : Crates} {dir path top : String} {rel : List Char} {r r' : Option RootMods} {lib main : Finset String}

/-! ### Reading a record back -/

theorem mapEach_asStr (items : List String) : mapEach asStr (items.map .str) = some items := by
  induction items with
  | nil => rfl
  | cons s items ih =>
    rw [List.map_cons, mapEach, ih]
    rfl

theorem toFinset_inOrder (s : Finset String) : (inOrder s).toFinset = s := by
  ext name
  rw [List.mem_toFinset, mem_inOrder]

theorem names_lib : names (rootModsValue (.known lib main)) "lib" = some lib := by
  show (mapEach asStr ((inOrder lib).map .str)).map List.toFinset = some lib
  rw [mapEach_asStr, Option.map_some, toFinset_inOrder]

theorem names_main : names (rootModsValue (.known lib main)) "main" = some main := by
  show (mapEach asStr ((inOrder main).map .str)).map List.toFinset = some main
  rw [mapEach_asStr, Option.map_some, toFinset_inOrder]

theorem names_opaqueRoots (side : String) (h : side ≠ "opaque") : names (rootModsValue .opaqueRoots) side = none := by
  have hfield : field (rootModsValue .opaqueRoots) side = none := by
    show List.lookup side [("opaque", JsonVal.bool true)] = none
    rw [List.lookup_cons, beq_eq_false_iff_ne.mpr h]
    rfl
  unfold names
  rw [hfield]

theorem rootModsValue_injective {m m' : RootMods} (h : rootModsValue m = rootModsValue m') : m = m' := by
  have hlib := congrArg (names · "lib") h
  have hmain := congrArg (names · "main") h
  cases m with
  | known lib main =>
    rw [names_lib] at hlib
    rw [names_main] at hmain
    cases m' with
    | known lib' main' =>
      rw [names_lib] at hlib
      rw [names_main] at hmain
      rw [Option.some.inj hlib, Option.some.inj hmain]
    | opaqueRoots =>
      rw [names_opaqueRoots "lib" (by decide)] at hlib
      cases hlib
  | opaqueRoots =>
    rw [names_opaqueRoots "lib" (by decide)] at hlib
    cases m' with
    | known lib' main' =>
      rw [names_lib] at hlib
      cases hlib
    | opaqueRoots => rfl

theorem lookup_recordFields (a : Crates) (dir : String) :
    (recordFields a).lookup dir = (a.rootMods.lookup dir).map rootModsValue := by
  unfold recordFields
  induction a.rootMods with
  | nil => rfl
  | cons e rest ih =>
    rw [List.map_cons, List.lookup_cons, List.lookup_cons, ih]
    cases dir == e.1 <;> rfl

/-- The comparison of the values is that of the records. -/
theorem sameRecord_iff : sameRecord (r.map rootModsValue) (r'.map rootModsValue) = true ↔ r = r' := by
  cases r with
  | none => cases r' <;> simp [sameRecord]
  | some m =>
    cases r' with
    | none => simp [sameRecord]
    | some m' =>
      rw [Option.map_some, Option.map_some, sameRecord, JsonVal.same_iff, Option.some.injEq]
      exact ⟨rootModsValue_injective, fun h => h ▸ rfl⟩

/-! ### What moved in a package -/

/-- A module that changes sides is in one of the differences, unless the whole package counts. -/
theorem movedTops_all (h : sideIn r top ≠ sideIn r' top) :
    (movedTops (r'.map rootModsValue) (r.map rootModsValue)).all (fun tops => top ∈ tops) = true := by
  -- roots that cannot be read on one side flag every name
  match r, r', h with
  | none, none, _ => rfl
  | none, some _, _ => rfl
  | some _, none, _ => rfl
  | some .opaqueRoots, some m', _ =>
    have hside : ∀ now, sideTops now (rootModsValue .opaqueRoots) "lib" = none := by
      intro now
      unfold sideTops
      rw [names_opaqueRoots "lib" (by decide)]
      cases names now "lib" <;> rfl
    rw [Option.map_some, Option.map_some, movedTops, hside]
    rfl
  | some (.known lib main), some .opaqueRoots, _ =>
    have hside : ∀ was, sideTops (rootModsValue .opaqueRoots) was "lib" = none := by
      intro was
      unfold sideTops
      rw [names_opaqueRoots "lib" (by decide)]
      rfl
    rw [Option.map_some, Option.map_some, movedTops, hside]
    rfl
  | some (.known lib main), some (.known lib' main'), h =>
    have htops : movedTops (some (rootModsValue (.known lib' main'))) (some (rootModsValue (.known lib main))) =
        some (symmDiff lib' lib ∪ symmDiff main' main) := by
      unfold movedTops sideTops
      dsimp only
      rw [names_lib, names_lib, names_main, names_main]
      rfl
    rw [Option.map_some, Option.map_some, htops, Option.all_some, decide_eq_true_eq]
    -- a name outside both differences is declared by both or by neither
    by_contra hout
    simp only [Finset.mem_union, Finset.mem_symmDiff, not_or, not_and, not_not] at hout
    obtain ⟨⟨hlib', hlib⟩, hmain', hmain⟩ := hout
    have hl : top ∈ lib ↔ top ∈ lib' := ⟨hlib, hlib'⟩
    have hm : top ∈ main ↔ top ∈ main' := ⟨hmain, hmain'⟩
    apply h
    unfold sideIn
    dsimp only
    rw [decide_eq_decide.mpr hl, decide_eq_decide.mpr hm]

/-! ### A file of a package -/

theorem stripPrefix_eq_some : stripPrefix dir path = some rel ↔ path.toList = dir.toList ++ rel := by
  unfold stripPrefix
  split_ifs with h
  · obtain ⟨rest, hrest⟩ := h
    rw [← hrest, List.drop_left, Option.some.injEq, List.append_cancel_left_eq]
  · refine iff_of_false (fun hs => by cases hs) fun heq => h ⟨rel, heq.symm⟩

/-- A directory ends in `/`, so the end of a file's name is below it. -/
theorem suffix_of_dir (hdir : ['s', 'r', 'c', '/'] <:+ dir.toList) (hpath : ['.', 'r', 's'] <:+ path.toList)
    (hrel : path.toList = dir.toList ++ rel) : ['.', 'r', 's'] <:+ rel := by
  have hrest : rel <:+ path.toList := ⟨dir.toList, hrel.symm⟩
  rcases List.suffix_or_suffix_of_suffix hpath hrest with h | ⟨p, hp⟩
  · exact h
  · rcases List.eq_nil_or_concat p with rfl | ⟨p', c, rfl⟩
    · exact ⟨[], hp.symm⟩
    · -- the last character of the directory would be one of `.rs`
      obtain ⟨q, hq⟩ := hpath
      obtain ⟨d, hd⟩ := hdir
      have hlast : (q ++ p') ++ [c] = (d ++ ['s', 'r', 'c']) ++ ['/'] := by
        have hsplit : (q ++ p' ++ [c]) ++ rel = dir.toList ++ rel := by
          rw [← hrel, ← hq, ← hp]
          simp
        have hdirEq := List.append_cancel_right hsplit
        rw [hdirEq, ← hd]
        simp
      have hc : c = '/' := List.singleton_inj.mp (List.append_inj' hlast rfl).2
      have hmem : '/' ∈ ['.', 'r', 's'] := by
        rw [← hp, ← hc]
        simp
      exact absurd hmem (by decide)

theorem dir_suffix_of_lookup {m : RootMods} (h : a.rootMods.lookup dir = some m) :
    ['s', 'r', 'c', '/'] <:+ dir.toList ∧ dir ∈ a.rootMods.map Prod.fst := by
  obtain ⟨e, he, hdir, -⟩ : ∃ e ∈ a.rootMods, e.1 = dir ∧ e.2 = m := by
    generalize a.rootMods = l at h
    induction l with
    | nil => cases h
    | cons e l ih =>
      rw [List.lookup_cons] at h
      by_cases heq : dir = e.1
      · rw [beq_iff_eq.mpr heq] at h
        exact ⟨e, List.mem_cons_self, heq.symm, Option.some.inj h⟩
      · rw [beq_eq_false_iff_ne.mpr heq] at h
        obtain ⟨e', he', hrest⟩ := ih h
        exact ⟨e', List.mem_cons_of_mem e he', hrest⟩
  subst hdir
  exact ⟨a.dirs e he, List.mem_map_of_mem he⟩

/-- Where the sides differ, a record does, and it decides. -/
theorem sides_differ (h : a.sideOf dir path ≠ b.sideOf dir path) :
    ∃ rel, stripPrefix dir path = some rel ∧ rel ≠ libRs ∧ rel ≠ mainRs ∧
      sideIn (a.rootMods.lookup dir) (topOf rel) ≠ sideIn (b.rootMods.lookup dir) (topOf rel) := by
  unfold Crates.sideOf at h
  cases hrel : stripPrefix dir path with
  | none =>
    rw [hrel] at h
    exact absurd rfl h
  | some rel =>
    rw [hrel] at h
    dsimp only at h
    by_cases hlib : rel = libRs
    · rw [if_pos hlib, if_pos hlib] at h
      exact absurd rfl h
    · by_cases hmain : rel = mainRs
      · rw [if_neg hlib, if_neg hlib, if_pos hmain, if_pos hmain] at h
        exact absurd rfl h
      · rw [if_neg hlib, if_neg hlib, if_neg hmain, if_neg hmain] at h
        exact ⟨rel, rfl, hlib, hmain, h⟩

theorem mem_moved {change : String × Option (Finset String)} : change ∈ moved (recordFields a) b ↔
    (change.1 ∈ a.rootMods.map Prod.fst ∨ change.1 ∈ b.rootMods.map Prod.fst) ∧
      a.rootMods.lookup change.1 ≠ b.rootMods.lookup change.1 ∧
      change.2 = movedTops ((b.rootMods.lookup change.1).map rootModsValue)
        ((a.rootMods.lookup change.1).map rootModsValue) := by
  have hkeys : (recordFields a).map Prod.fst = a.rootMods.map Prod.fst := by
    unfold recordFields
    rw [List.map_map]
    rfl
  unfold moved
  rw [List.mem_filterMap, hkeys]
  constructor
  · rintro ⟨dir, hdir, hchange⟩
    rw [List.mem_dedup, List.mem_append] at hdir
    dsimp only at hchange
    rw [lookup_recordFields] at hchange
    split_ifs at hchange with hsame
    obtain rfl := Option.some.inj hchange
    exact ⟨hdir, fun heq => hsame (sameRecord_iff.mpr heq.symm), rfl⟩
  · rintro ⟨hdir, hne, htops⟩
    refine ⟨change.1, List.mem_dedup.mpr (List.mem_append.mpr hdir), ?_⟩
    dsimp only
    rw [lookup_recordFields, if_neg fun hsame => hne (sameRecord_iff.mp hsame).symm, ← htops]

theorem mem_rustRootModMoves {serde : Serde} {files : List String}
    (hread : serde.fromStr (a.rootModsJson serde) = some (.obj (recordFields a))) :
    path ∈ rustRootModMoves serde (some (a.rootModsJson serde)) b files ↔
      path ∈ files ∧ ∃ change ∈ moved (recordFields a) b, movesFile path change = true := by
  unfold rustRootModMoves
  rw [Option.bind_some, hread]
  dsimp only
  rw [mem_sortByKey, List.mem_filter, List.any_eq_true]

/-- A file whose crate changed between two runs is found, and what is found is below a package whose record changed. -/
theorem rustRootModMoves_finds (serde : Serde) (a b : Crates) (files : List String)
    (hread : serde.fromStr (a.rootModsJson serde) = some (.obj (recordFields a))) :
    (∀ path ∈ files, ['.', 'r', 's'] <:+ path.toList → (∃ dir, a.sideOf dir path ≠ b.sideOf dir path) →
      path ∈ rustRootModMoves serde (some (a.rootModsJson serde)) b files) ∧
    ∀ path ∈ rustRootModMoves serde (some (a.rootModsJson serde)) b files,
      ∃ dir, dir.toList <+: path.toList ∧ a.rootMods.lookup dir ≠ b.rootMods.lookup dir := by
  constructor
  · rintro path hpath hrs ⟨dir, hsides⟩
    obtain ⟨rel, hrel, hlib, hmain, hside⟩ := sides_differ hsides
    have hne : a.rootMods.lookup dir ≠ b.rootMods.lookup dir := fun heq => hside (heq ▸ rfl)
    -- the sides differ, so one of them has an entry for the directory
    have hdir : ['s', 'r', 'c', '/'] <:+ dir.toList ∧
        (dir ∈ a.rootMods.map Prod.fst ∨ dir ∈ b.rootMods.map Prod.fst) := by
      cases ha : a.rootMods.lookup dir with
      | some m =>
        obtain ⟨hsrc, hkey⟩ := dir_suffix_of_lookup ha
        exact ⟨hsrc, .inl hkey⟩
      | none =>
        cases hb : b.rootMods.lookup dir with
        | some m =>
          obtain ⟨hsrc, hkey⟩ := dir_suffix_of_lookup hb
          exact ⟨hsrc, .inr hkey⟩
        | none => exact absurd (ha.trans hb.symm) hne
    let tops := movedTops ((b.rootMods.lookup dir).map rootModsValue) ((a.rootMods.lookup dir).map rootModsValue)
    refine (mem_rustRootModMoves hread).mpr ⟨hpath, ⟨dir, tops⟩, mem_moved.mpr ⟨hdir.2, hne, rfl⟩, ?_⟩
    have hsuffix := suffix_of_dir hdir.1 hrs (stripPrefix_eq_some.mp hrel)
    unfold movesFile
    rw [hrel]
    dsimp only
    rw [if_neg (by simp [hsuffix, hlib, hmain])]
    exact movedTops_all hside
  · intro path hpath
    obtain ⟨-, ⟨dir, tops⟩, hchange, hmoves⟩ := (mem_rustRootModMoves hread).mp hpath
    refine ⟨dir, ?_, (mem_moved.mp hchange).2.1⟩
    unfold movesFile at hmoves
    cases hrel : stripPrefix dir path with
    | none =>
      rw [hrel] at hmoves
      cases hmoves
    | some rel => exact ⟨rel, (stripPrefix_eq_some.mp hrel).symm⟩

/-- A package whose library declares the module `cli`. -/
def cliInLib : Crates where
  rootMods := [("src/", .known {"cli"} ∅)]
  sorted := by decide
  dirs := by decide

/-- Its binary declares it. -/
def cliInMain : Crates where
  rootMods := [("src/", .known ∅ {"cli"})]
  sorted := by decide
  dirs := by decide

def cliRecord : String := "\x7b\"src/\":\x7b\"lib\":[\"cli\"],\"main\":[]\x7d\x7d"

/-- What `serde_json` makes of the record. -/
def cliSerde : Serde where
  toString := fun _ => cliRecord
  fromStr := fun text =>
    if text = cliRecord then
      some (.obj [("src/", .obj [("lib", .arr [.str "cli"]), ("main", .arr [])])])
    else none

theorem rustRootModMoves_cli :
    "src/cli/args.rs" ∈ rustRootModMoves cliSerde (some (cliInLib.rootModsJson cliSerde)) cliInMain
      ["src/cli/args.rs", "src/other.rs"] := by
  have hread : cliSerde.fromStr (cliInLib.rootModsJson cliSerde) = some (.obj (recordFields cliInLib)) := rfl
  apply (rustRootModMoves_finds cliSerde cliInLib cliInMain _ hread).1
  · exact List.mem_cons_self
  · decide
  · exact ⟨"src/", by decide⟩

end CodeGraph.Pipeline.RustCrates
