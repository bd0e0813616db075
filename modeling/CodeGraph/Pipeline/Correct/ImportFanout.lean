import CodeGraph.Pipeline.Correct.PythonModules
import CodeGraph.Pipeline.ImportFanout

/-!
# Which importers a run reaches

A bound import gains a file when the run adds the file or makes a root of a directory above it. An absolute one is then
under a module path that changes. A relative one gains only a new file, and where that is an `__init__.py` its package
is one of those that moved. What is left is a relative import that gains a plain module `p.py`: no test is made for it,
so its importer is reached only through another of its imports (`importFanout_complete_iff`).
-/

namespace CodeGraph.Pipeline.PythonModules

open CodeGraph.Lib

variable {paths paths' before after files deletePaths : List Path} {path p f importer : Path} {key m : List Char}
  {s : Stored}

/-! ### Module paths that change -/

theorem mem_keysOf {roots : List Path} :
    key ∈ keysOf roots path ↔ ∃ stripped, stem path = some stripped ∧ Keyed roots stripped key := by
  unfold keysOf Keyed
  cases stem path with
  | none => simp
  | some stripped =>
    simp only [List.mem_map, List.mem_filter, List.mem_filterMap, decide_eq_true_eq, Option.some_inj, exists_eq_left']
    constructor
    · rintro ⟨rel, ⟨⟨root, hroot, hrel⟩, hne⟩, rfl⟩
      exact ⟨root, hroot, rel, hrel, hne, rfl⟩
    · rintro ⟨root, hroot, rel, hrel, hne, rfl⟩
      exact ⟨rel, ⟨⟨root, hroot, hrel⟩, hne⟩, rfl⟩

/-- A key that the map has lists a file. -/
theorem buildPythonModuleMap_ne_nil : buildPythonModuleMap paths key ≠ some [] := by
  -- a path is pushed onto an entry, and never taken from one
  have hpush : ∀ (map : ModuleMap) key path, (∀ k, map k ≠ some []) → ∀ k, map.push key path k ≠ some [] := by
    intro map key path hmap k
    unfold ModuleMap.push
    by_cases hk : k = key
    · subst hk
      rw [Function.update_self]
      simp
    · rw [Function.update_of_ne hk]
      exact hmap k
  have hat : ∀ path stripped (map : ModuleMap) root, (∀ k, map k ≠ some []) →
      ∀ k, registerAt path stripped map root k ≠ some [] := by
    intro path stripped map root hmap
    unfold registerAt
    cases relTo root stripped with
    | none => exact hmap
    | some rel =>
      dsimp only
      split_ifs
      · exact hmap
      · exact hpush map _ path hmap
  have hregister : ∀ roots (map : ModuleMap) path, (∀ k, map k ≠ some []) → ∀ k, register roots map path k ≠ some [] := by
    intro roots map path hmap
    unfold register
    cases stem path with
    | none => exact hmap
    | some stripped =>
      exact List.foldlRecOn (motive := fun map : ModuleMap => ∀ k, map k ≠ some []) roots _ hmap
        fun map hmap root _ => hat path stripped map root hmap
  have hall : ∀ k, (paths.foldl (register (importRoots paths)) fun _ => none) k ≠ some [] :=
    List.foldlRecOn (motive := fun map : ModuleMap => ∀ k, map k ≠ some []) paths _ (fun _ => by simp)
      fun map hmap path _ => hregister _ map path hmap
  unfold buildPythonModuleMap
  intro h
  obtain ⟨found, hfound, hsorted⟩ := Option.map_eq_some_iff.mp h
  -- sorting and dropping what is twice empties no list
  have hempty : ∀ f, f ∉ found := by
    intro f hf
    have hmem : f ∈ sortDedup found := by simpa [sortDedup] using hf
    rw [hsorted] at hmem
    cases hmem
  exact hall key (hfound.trans (congrArg some (List.eq_nil_iff_forall_not_mem.mpr hempty)))

theorem mem_moduleKeys : key ∈ moduleKeys paths ↔ buildPythonModuleMap paths key ≠ none := by
  have hkeys : key ∈ moduleKeys paths ↔ ∃ f, f ∈ (buildPythonModuleMap paths key).getD [] := by
    unfold moduleKeys
    simp only [List.mem_flatMap, mem_keysOf, mem_getD_buildPythonModuleMap]
  rw [hkeys]
  have hne := @buildPythonModuleMap_ne_nil paths key
  cases hmap : buildPythonModuleMap paths key with
  | none => simp
  | some found =>
    rw [hmap] at hne
    cases found with
    | nil => exact absurd rfl hne
    | cons f found => simp

/-- The keys of either map whose files differ are all the keys whose files differ. -/
theorem mem_changedModulePaths : key ∈ changedModulePaths before after ↔
    buildPythonModuleMap before key ≠ buildPythonModuleMap after key := by
  unfold changedModulePaths
  rw [List.mem_filter, List.mem_append, mem_moduleKeys, mem_moduleKeys, decide_eq_true_eq]
  refine and_iff_right_of_imp fun hne => ?_
  by_contra hnone
  obtain ⟨hbefore, hafter⟩ := not_or.mp hnone
  rw [not_not] at hbefore hafter
  exact hne (hbefore.trans hafter.symm)

/-- A file keeps the keys it has where no package comes up. -/
theorem Named.mono (h : Named paths key f) (hpackages : ∀ d, d ++ initSuffix ∈ paths' → d ++ initSuffix ∈ paths) :
    Named paths' key f := by
  obtain ⟨stripped, hstem, hroot | ⟨d, rest, hd, hsplit, hkey, houtside⟩⟩ := h
  · exact ⟨stripped, hstem, .inl hroot⟩
  · exact ⟨stripped, hstem, .inr ⟨d, rest, hd, hsplit, hkey, fun e he hinit => houtside e he (hpackages e hinit)⟩⟩

/-! ### What an import names -/

/-- The files that an import names with these Python files. -/
def importFiles (paths : List Path) (m : List Char) (importer : Path) : List Path :=
  (projectModuleFilesFrom m importer (buildPythonModuleMap paths)).getD []

theorem mem_importFiles_absolute (h : ¬['.'] <+: m) :
    f ∈ importFiles paths m importer ↔ f ∈ (buildPythonModuleMap paths m).getD [] := by
  unfold importFiles projectModuleFilesFrom
  rw [if_pos h]

theorem mem_importFiles_relative (h : relativeModulePath m importer = some p) :
    f ∈ importFiles paths m importer ↔ f ∈ wanted p ∧ f ∈ paths ∧ stem f = some p := by
  have hne := relativeModulePath_ne_nil h
  have hfilter : f ∈ importFiles paths m importer ↔
      f ∈ ((buildPythonModuleMap paths (dotted p)).getD []).filter fun f => f ∈ wanted p := by
    unfold importFiles
    rw [projectModuleFilesFrom_relative h]
    split_ifs with hempty
    · rw [hempty]
      rfl
    · rfl
  rw [hfilter, List.mem_filter, decide_eq_true_eq, and_comm]
  exact and_congr_right fun hf => mem_wanted_iff hne hf

theorem importFiles_above (hdot : ['.'] <+: m) (h : relativeModulePath m importer = none) :
    importFiles paths m importer = [] := by
  unfold importFiles projectModuleFilesFrom
  rw [if_neg (not_not_intro hdot), h]
  rfl

/-- The import names a file in the second set that it did not name in the first. -/
def Gains (before after : List Path) (m : List Char) (importer : Path) : Prop :=
  ∃ f ∈ importFiles after m importer, f ∉ importFiles before m importer

/-! ### Files that appear -/

theorem likePy_of_suffix (h : pySuffix <:+ f) : likePy f = true := by
  obtain ⟨t, rfl⟩ := h
  unfold likePy
  rw [List.isSuffixOf_iff_suffix, List.map_append]
  exact ⟨t.map Char.toLower, rfl⟩

theorem isInit_append (p : Path) : isInit (p ++ initSuffix) = true := by
  unfold isInit
  rw [Bool.or_eq_true, List.isSuffixOf_iff_suffix]
  exact .inr ⟨p, rfl⟩

theorem dirOf_append (p : Path) : dirOf (p ++ initSuffix) = p := by
  simp [dirOf, dirs, dirsBack, initSuffix]

theorem mem_pythonBefore : f ∈ pythonBefore s ↔ f ∈ s.files ∧ likePy f = true := List.mem_filter

theorem mem_pythonAfter : f ∈ pythonAfter s files deletePaths ↔
    (f ∈ pythonBefore s ∧ f ∉ deletePaths) ∨ (f ∈ files ∧ pySuffix <:+ f) := by
  unfold pythonAfter
  rw [List.mem_append, List.mem_filter, List.mem_filter, decide_eq_true_eq, List.isSuffixOf_iff_suffix]

theorem mem_appearing : f ∈ appearing s files ↔ f ∈ files ∧ pySuffix <:+ f ∧ f ∉ s.files := by
  unfold appearing
  rw [List.mem_filter, Bool.and_eq_true, decide_eq_true_eq, List.isSuffixOf_iff_suffix]

/-- What is in the second set and not in the first appears. -/
theorem mem_appearing_of_after (hafter : f ∈ pythonAfter s files deletePaths) (hbefore : f ∉ pythonBefore s) :
    f ∈ appearing s files := by
  rcases mem_pythonAfter.mp hafter with ⟨hold, -⟩ | ⟨hfiles, hpy⟩
  · exact absurd hold hbefore
  · exact mem_appearing.mpr ⟨hfiles, hpy, fun hstored => hbefore (mem_pythonBefore.mpr ⟨hstored, likePy_of_suffix hpy⟩)⟩

/-- A relative import gains just the files it spells that appear. -/
theorem gains_relative_iff (h : relativeModulePath m importer = some p) :
    Gains (pythonBefore s) (pythonAfter s files deletePaths) m importer ↔
      ∃ f ∈ wanted p, stem f = some p ∧ f ∈ appearing s files := by
  unfold Gains
  simp only [mem_importFiles_relative h]
  constructor
  · rintro ⟨f, ⟨hwanted, hafter, hstem⟩, hnot⟩
    exact ⟨f, hwanted, hstem, mem_appearing_of_after hafter fun hbefore => hnot ⟨hwanted, hbefore, hstem⟩⟩
  · rintro ⟨f, hwanted, hstem, happears⟩
    obtain ⟨hfiles, hpy, hnew⟩ := mem_appearing.mp happears
    refine ⟨f, ⟨hwanted, mem_pythonAfter.mpr (.inr ⟨hfiles, hpy⟩), hstem⟩, ?_⟩
    rintro ⟨-, hbefore, -⟩
    exact hnew (mem_pythonBefore.mp hbefore).1

/-- Where no file appears and no package goes, no import gains a file. -/
theorem not_gains_of_still (hpackages : movedPackages s files deletePaths = []) (hnew : newModule s files = false) :
    ¬Gains (pythonBefore s) (pythonAfter s files deletePaths) m importer := by
  unfold movedPackages at hpackages
  obtain ⟨hdeleted, hinits⟩ := List.append_eq_nil_iff.mp hpackages
  rw [List.map_eq_nil_iff, List.filter_eq_nil_iff] at hdeleted hinits
  -- no package and no module is new, so no file appears
  have hnone : ∀ f, f ∉ appearing s files := by
    intro f hf
    have hplain : isInit f = false := by simpa using hinits f hf
    have hany : newModule s files = true := List.any_eq_true.mpr ⟨f, hf, by simp [hplain]⟩
    rw [hnew] at hany
    cases hany
  have hsub : ∀ f, f ∈ pythonAfter s files deletePaths → f ∈ pythonBefore s := by
    intro f hf
    by_contra hbefore
    exact hnone f (mem_appearing_of_after hf hbefore)
  -- and no package goes
  have hkept : ∀ d, d ++ initSuffix ∈ pythonBefore s → d ++ initSuffix ∈ pythonAfter s files deletePaths := by
    intro d hd
    exact mem_pythonAfter.mpr (.inl ⟨hd, fun hdeletes => hdeleted _ hdeletes (isInit_append d)⟩)
  by_cases hdot : ['.'] <+: m
  · cases hp : relativeModulePath m importer with
    | none =>
      rintro ⟨f, hf, -⟩
      rw [importFiles_above hdot hp] at hf
      cases hf
    | some p =>
      rw [gains_relative_iff hp]
      rintro ⟨f, -, -, happears⟩
      exact hnone f happears
  · rintro ⟨f, hf, hnot⟩
    rw [mem_importFiles_absolute hdot, mem_getD_iff_named] at hf hnot
    exact hnot ⟨hsub f hf.1, hf.2.1, hf.2.2.mono hkept⟩

/-- Where an import gains a file, a module path changes. -/
theorem changed_of_gains (h : Gains before after m importer) : changedModulePaths before after ≠ [] := by
  obtain ⟨f, hf, hnot⟩ := h
  have hchanged : ∀ key, f ∈ (buildPythonModuleMap after key).getD [] → f ∉ (buildPythonModuleMap before key).getD [] →
      changedModulePaths before after ≠ [] := by
    intro key hafter hbefore
    refine List.ne_nil_of_mem (a := key) (mem_changedModulePaths.mpr fun heq => ?_)
    rw [heq] at hbefore
    exact hbefore hafter
  by_cases hdot : ['.'] <+: m
  · cases hp : relativeModulePath m importer with
    | none =>
      rw [importFiles_above hdot hp] at hf
      cases hf
    | some p =>
      have hne := relativeModulePath_ne_nil hp
      rw [mem_importFiles_relative hp] at hf hnot
      obtain ⟨hwanted, hafter, hstem⟩ := hf
      refine hchanged (dotted p) ((mem_wanted_iff hne hwanted).mpr ⟨hafter, hstem⟩) fun hbefore => hnot ⟨hwanted, ?_⟩
      exact (mem_wanted_iff hne hwanted).mp hbefore
  · rw [mem_importFiles_absolute hdot] at hf hnot
    exact hchanged m hf hnot

/-! ### Importers that are reached -/

/-- One of the imports of the file, bound or not, passes one of the two tests. -/
def Reached (s : Stored) (files deletePaths : List Path) (importer : Path) : Prop :=
  ∃ m, ((importer, m) ∈ boundImports s ∨ (m, importer) ∈ externalSentinelImporters s ∧ pySuffix <:+ importer) ∧
    (m ∈ changedModulePaths (pythonBefore s) (pythonAfter s files deletePaths) ∨
      namesPackage (movedPackages s files deletePaths) m importer = true)

theorem mem_pythonRootChangeImporters : importer ∈ pythonRootChangeImporters s files deletePaths ↔
    ¬(movedPackages s files deletePaths = [] ∧ newModule s files = false) ∧ pythonBefore s ≠ [] ∧
      changedModulePaths (pythonBefore s) (pythonAfter s files deletePaths) ≠ [] ∧ Reached s files deletePaths importer := by
  unfold pythonRootChangeImporters
  dsimp only
  by_cases hstill : movedPackages s files deletePaths = [] ∧ newModule s files = false
  · rw [if_pos hstill]
    simp [hstill]
  by_cases hbefore : pythonBefore s = []
  · rw [if_neg hstill, if_pos hbefore]
    simp [hbefore]
  by_cases hchanged : changedModulePaths (pythonBefore s) (pythonAfter s files deletePaths) = []
  · rw [if_neg hstill, if_neg hbefore, if_pos hchanged]
    simp [hchanged]
  rw [if_neg hstill, if_neg hbefore, if_neg hchanged, and_iff_right hstill, and_iff_right hbefore, and_iff_right hchanged]
  unfold sortDedup Reached
  simp only [mem_inOrder, List.mem_toFinset, List.mem_append, List.mem_map, List.mem_filter, Bool.or_eq_true,
    Bool.and_eq_true, decide_eq_true_eq, List.isSuffixOf_iff_suffix, Prod.exists, exists_and_right, exists_eq_right]
  grind

/-- A plain module `p.py` that appears. -/
def PlainAppears (s : Stored) (files : List Path) (p : Path) : Prop :=
  p ++ pySuffix ∈ appearing s files ∧ ¬initSuffix <:+ p ++ pySuffix

/-- An import that gains a file is reached itself, or is a relative one that gains a plain module. -/
theorem reached_of_gains (hbound : (importer, m) ∈ boundImports s)
    (h : Gains (pythonBefore s) (pythonAfter s files deletePaths) m importer) :
    Reached s files deletePaths importer ∨ ∃ p, relativeModulePath m importer = some p ∧ PlainAppears s files p := by
  by_cases hdot : ['.'] <+: m
  · cases hp : relativeModulePath m importer with
    | none =>
      obtain ⟨f, hf, -⟩ := h
      rw [importFiles_above hdot hp] at hf
      cases hf
    | some p =>
      obtain ⟨f, hwanted, hstem, happears⟩ := (gains_relative_iff hp).mp h
      rcases List.mem_pair.mp hwanted with rfl | rfl
      · refine .inr ⟨p, rfl, happears, fun hinit => ?_⟩
        rcases stem_eq_some.mp hstem with hsame | ⟨-, hplain⟩
        · exact absurd (List.append_cancel_left hsame) (by decide)
        · exact hplain hinit
      · -- the package of the new `__init__.py` is the one that the import names
        refine .inl ⟨m, .inl hbound, .inr ?_⟩
        unfold namesPackage
        rw [hp, Option.any_some, decide_eq_true_eq]
        unfold movedPackages
        refine List.mem_append_right _ (List.mem_map.mpr ⟨p ++ initSuffix, ?_, dirOf_append p⟩)
        exact List.mem_filter.mpr ⟨happears, isInit_append p⟩
  · obtain ⟨f, hf, hnot⟩ := h
    rw [mem_importFiles_absolute hdot] at hf hnot
    refine .inl ⟨m, .inl hbound, .inl (mem_changedModulePaths.mpr fun heq => ?_)⟩
    rw [heq] at hnot
    exact hnot hf

theorem gains_of_plainAppears (hp : relativeModulePath m importer = some p) (h : PlainAppears s files p) :
    Gains (pythonBefore s) (pythonAfter s files deletePaths) m importer := by
  refine (gains_relative_iff hp).mpr ⟨p ++ pySuffix, List.mem_cons_self, ?_, h.1⟩
  exact stem_eq_some.mpr (.inr ⟨rfl, h.2⟩)

/-! ### The fan-out of a run -/

/-- Every file outside the run with a bound import that gains a file is in the list. -/
def FanoutComplete (s : Stored) (files deletePaths : List Path) : Prop :=
  ∀ importer m, (importer, m) ∈ boundImports s → importer ∉ files → importer ∉ deletePaths →
    Gains (pythonBefore s) (pythonAfter s files deletePaths) m importer →
    importer ∈ pythonRootChangeImporters s files deletePaths

/-- A file whose relative import gains a plain module must be reached through another of its imports, and where no
`.py` file is stored no import may gain one. -/
theorem importFanout_complete_iff (s : Stored) (files deletePaths : List Path) :
    FanoutComplete s files deletePaths ↔
      ∀ importer m, (importer, m) ∈ boundImports s → importer ∉ files → importer ∉ deletePaths →
        if pythonBefore s = [] then ¬Gains (pythonBefore s) (pythonAfter s files deletePaths) m importer
        else ∀ p, relativeModulePath m importer = some p → PlainAppears s files p → Reached s files deletePaths importer := by
  constructor
  · intro hcomplete importer m hbound hfiles hdeleted
    have hlisted := hcomplete importer m hbound hfiles hdeleted
    split_ifs with hbefore
    · intro hgains
      exact (mem_pythonRootChangeImporters.mp (hlisted hgains)).2.1 hbefore
    · intro p hp happears
      exact (mem_pythonRootChangeImporters.mp (hlisted (gains_of_plainAppears hp happears))).2.2.2
  · intro hcondition importer m hbound hfiles hdeleted hgains
    have hreached := hcondition importer m hbound hfiles hdeleted
    split_ifs at hreached with hbefore
    · exact absurd hgains hreached
    · refine mem_pythonRootChangeImporters.mpr ⟨?_, hbefore, changed_of_gains hgains, ?_⟩
      · rintro ⟨hpackages, hnew⟩
        exact not_gains_of_still hpackages hnew hgains
      · rcases reached_of_gains hbound hgains with h | ⟨p, hp, happears⟩
        · exact h
        · exact hreached p hp happears

/-- `a/v.py` imports `.m`, which is the package `a/m`. -/
def samplePackage : Stored where
  files := ['a' :: '/' :: 'm' :: initSuffix, ['a', '/', 'v', '.', 'p', 'y']]
  edges := [{
    relation := "imports"
    sourcePath := ['a', '/', 'v', '.', 'p', 'y']
    sourceLanguage := some "python"
    targetPath := 'a' :: '/' :: 'm' :: initSuffix
    targetName := ['f']
    pythonModule := some ['.', 'm'] }]

/-- A new `a/m.py` beside the package is a second file of `.m`, and `a/v.py` is not in the list. -/
theorem importFanout_misses_plain : ¬FanoutComplete samplePackage [['a', '/', 'm', '.', 'p', 'y']] [] := by
  intro hcomplete
  have hrelative : relativeModulePath ['.', 'm'] ['a', '/', 'v', '.', 'p', 'y'] = some ['a', '/', 'm'] := by
    decide +kernel
  have happears : PlainAppears samplePackage [['a', '/', 'm', '.', 'p', 'y']] ['a', '/', 'm'] :=
    ⟨by decide +kernel, by decide +kernel⟩
  have hlisted := hcomplete ['a', '/', 'v', '.', 'p', 'y'] ['.', 'm'] (by decide +kernel) (by decide +kernel)
    (by decide +kernel) (gains_of_plainAppears hrelative happears)
  revert hlisted
  decide +kernel

end CodeGraph.Pipeline.PythonModules
