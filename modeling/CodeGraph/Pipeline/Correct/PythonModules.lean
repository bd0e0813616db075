import CodeGraph.Lib.Lists
import CodeGraph.Pipeline.PythonModules
import Mathlib.Data.List.Infix
import Mathlib.Tactic.Tauto

/-!
# What the Python module map holds

`IsRoot` says which directories Python imports from. A file stands under the dotted form of its stem from the project
root and from each root above it, and under no other key (`mem_buildPythonModuleMap`). A relative import therefore finds
the files that it spells, unless it spells an `__init__.py` by its own name: the key of such a file is that of its
directory.
-/

namespace CodeGraph.Pipeline.PythonModules

open CodeGraph.Lib

variable {paths : List Path} {path p s f d e root rel back : Path} {key : List Char}

/-! ### Directories -/

theorem mem_dirsBack : d ∈ dirsBack back ↔ ∃ below, back = below ++ '/' :: d.reverse := by
  induction back with
  | nil => simp [dirsBack]
  | cons c back ih =>
    rw [dirsBack]
    constructor
    · intro h
      have hmem : c = '/' ∧ d = back.reverse ∨ d ∈ dirsBack back := by
        split_ifs at h with hc
        · exact (List.mem_cons.mp h).imp_left fun hd => ⟨hc, hd⟩
        · exact .inr h
      rcases hmem with ⟨rfl, rfl⟩ | hmem
      · exact ⟨[], by rw [List.reverse_reverse]; rfl⟩
      · obtain ⟨below, rfl⟩ := ih.mp hmem
        exact ⟨c :: below, rfl⟩
    · rintro ⟨below, hsplit⟩
      rcases List.cons_eq_append_iff.mp hsplit with ⟨-, hcons⟩ | ⟨below', -, hrest⟩
      · obtain ⟨rfl, rfl⟩ := List.cons_eq_cons.mp hcons.symm
        rw [if_pos rfl, List.reverse_reverse]
        exact List.mem_cons_self
      · have hmem := ih.mpr ⟨below', hrest⟩
        split_ifs
        · exact List.mem_cons_of_mem _ hmem
        · exact hmem

/-- The directories of a path are what stands before a slash. -/
theorem mem_dirs : d ∈ dirs path ↔ ∃ below, path = d ++ '/' :: below := by
  rw [dirs, mem_dirsBack]
  constructor
  · rintro ⟨below, h⟩
    refine ⟨below.reverse, ?_⟩
    rw [← List.reverse_reverse path, h]
    simp
  · rintro ⟨below, rfl⟩
    exact ⟨below.reverse, by simp⟩

theorem dirs_reverse (back : Path) : dirs back.reverse = dirsBack back := by rw [dirs, List.reverse_reverse]

/-- Walking down from the root, a directory is met before anything fails iff it and all above it pass. -/
theorem mem_takeWhile_dirs {q : Path → Bool} : d ∈ (dirs path).reverse.takeWhile q ↔
    d ∈ dirs path ∧ q d = true ∧ ∀ e ∈ dirs d, q e = true := by
  rw [dirs]
  generalize path.reverse = back
  induction back with
  | nil => simp [dirsBack]
  | cons c back ih =>
    rw [dirsBack]
    split_ifs with hc
    · rw [List.reverse_cons, mem_takeWhile_concat, ih, List.mem_cons]
      constructor
      · rintro (⟨hd, hq⟩ | ⟨rfl, hq, hall⟩)
        · exact ⟨.inr hd, hq⟩
        · refine ⟨.inl rfl, hq, fun e he => hall e ?_⟩
          rw [dirs_reverse] at he
          exact List.mem_reverse.mpr he
      · rintro ⟨rfl | hd, hq, hall⟩
        · refine .inr ⟨rfl, hq, fun e he => hall e ?_⟩
          rw [dirs_reverse]
          exact List.mem_reverse.mp he
        · exact .inl ⟨hd, hq, hall⟩
    · exact ih

/-! ### Import roots -/

theorem mem_packages : d ∈ packages paths ↔ d ++ initSuffix ∈ paths := by
  unfold packages
  rw [List.mem_filterMap]
  constructor
  · rintro ⟨p, hp, hdrop⟩
    obtain ⟨suffix, rfl, hsuffix⟩ := List.dropSuffix?_eq_some_iff.mp hdrop
    rwa [eq_of_beq hsuffix] at hp
  · intro h
    exact ⟨_, h, List.dropSuffix?_eq_some_iff.mpr ⟨initSuffix, rfl, beq_self_eq_true _⟩⟩

/-- Neither the directory nor one above it is a package. -/
def OutsidePackages (paths : List Path) (d : Path) : Prop :=
  ∀ e, e = d ∨ (∃ below, d = e ++ '/' :: below) → e ++ initSuffix ∉ paths

theorem mem_rootsAbove : d ∈ rootsAbove paths path ↔ (∃ below, path = d ++ '/' :: below) ∧ OutsidePackages paths d := by
  unfold rootsAbove
  rw [mem_takeWhile_dirs, mem_dirs]
  refine and_congr_right fun _ => ?_
  simp only [decide_eq_true_eq, mem_packages, mem_dirs]
  constructor
  · rintro ⟨hd, habove⟩ e (rfl | he)
    · exact hd
    · exact habove e he
  · intro h
    exact ⟨h d (.inl rfl), fun e he => h e (.inr he)⟩

theorem mem_importRoots : d ∈ importRoots paths ↔
    d = [] ∨ (∃ path ∈ paths, ∃ below, path = d ++ '/' :: below) ∧ OutsidePackages paths d := by
  have hfold : ∀ l roots : List Path,
      d ∈ l.foldl (fun roots path => (rootsAbove paths path).foldl (fun roots d => roots.insert d) roots) roots ↔
        d ∈ roots ∨ ∃ path ∈ l, d ∈ rootsAbove paths path := by
    intro l
    induction l with
    | nil => simp
    | cons path l ih =>
      intro roots
      rw [List.foldl_cons, ih, mem_foldl_insert, List.exists_mem_cons_iff, or_assoc]
  unfold importRoots
  rw [hfold, List.mem_singleton]
  simp only [mem_rootsAbove]
  refine or_congr_right ⟨?_, ?_⟩
  · rintro ⟨path, hpath, hbelow, hroot⟩
    exact ⟨⟨path, hpath, hbelow⟩, hroot⟩
  · rintro ⟨⟨path, hpath, hbelow⟩, hroot⟩
    exact ⟨path, hpath, hbelow, hroot⟩

/-! ### The module map -/

theorem mem_getD_push {map : ModuleMap} {key' : List Char} :
    f ∈ (map.push key' path key).getD [] ↔ f ∈ (map key).getD [] ∨ f = path ∧ key = key' := by
  unfold ModuleMap.push
  by_cases hkey : key = key'
  · subst hkey
    rw [Function.update_self, Option.getD_some, List.mem_append, List.mem_singleton, and_iff_left rfl]
  · rw [Function.update_of_ne hkey]
    exact (or_iff_left fun h => hkey h.2).symm

theorem relTo_eq_some : relTo root s = some rel ↔ root = [] ∧ rel = s ∨ root ≠ [] ∧ s = root ++ '/' :: rel := by
  unfold relTo
  split_ifs with hroot
  · simp [hroot, eq_comm]
  · simp only [Option.bind_eq_some_iff, List.dropPrefix?_eq_some_iff, beq_iff_eq]
    constructor
    · rintro ⟨_, ⟨_, rfl, rfl⟩, _, rfl, rfl⟩
      exact .inr ⟨hroot, rfl⟩
    · rintro (⟨h, -⟩ | ⟨-, rfl⟩)
      · exact absurd h hroot
      · exact ⟨'/' :: rel, ⟨root, rfl, rfl⟩, ['/'], rfl, rfl⟩

/-- The keys of a file with the given stem. -/
def Keyed (roots : List Path) (s : Path) (key : List Char) : Prop :=
  ∃ root ∈ roots, ∃ rel, relTo root s = some rel ∧ rel ≠ [] ∧ key = dotted rel

theorem mem_getD_registerAt {map : ModuleMap} : f ∈ (registerAt path s map root key).getD [] ↔
    f ∈ (map key).getD [] ∨ f = path ∧ Keyed [root] s key := by
  unfold registerAt Keyed
  simp only [List.mem_singleton, exists_eq_left]
  cases relTo root s with
  | none => simp
  | some rel =>
    simp only [Option.some_inj, exists_eq_left']
    split_ifs with hempty
    · simp [hempty]
    · rw [mem_getD_push, ne_eq, and_iff_right hempty]

theorem mem_getD_foldl_registerAt {roots : List Path} {map : ModuleMap} :
    f ∈ (roots.foldl (registerAt path s) map key).getD [] ↔ f ∈ (map key).getD [] ∨ f = path ∧ Keyed roots s key := by
  induction roots generalizing map with
  | nil => simp [Keyed]
  | cons root roots ih =>
    have hcons : Keyed (root :: roots) s key ↔ Keyed [root] s key ∨ Keyed roots s key := by
      simp [Keyed]
    rw [List.foldl_cons, ih, mem_getD_registerAt, hcons]
    tauto

theorem mem_getD_register {roots : List Path} {map : ModuleMap} : f ∈ (register roots map path key).getD [] ↔
    f ∈ (map key).getD [] ∨ f = path ∧ ∃ s, stem path = some s ∧ Keyed roots s key := by
  unfold register
  cases stem path with
  | none => simp
  | some s =>
    rw [mem_getD_foldl_registerAt]
    simp

theorem mem_getD_foldl_register {roots l : List Path} {map : ModuleMap} :
    f ∈ (l.foldl (register roots) map key).getD [] ↔
      f ∈ (map key).getD [] ∨ f ∈ l ∧ ∃ s, stem f = some s ∧ Keyed roots s key := by
  induction l generalizing map with
  | nil => simp
  | cons path l ih =>
    rw [List.foldl_cons, ih, mem_getD_register, List.mem_cons, or_assoc]
    refine or_congr_right ⟨?_, ?_⟩
    · rintro (⟨rfl, hkeyed⟩ | ⟨hf, hkeyed⟩)
      · exact ⟨.inl rfl, hkeyed⟩
      · exact ⟨.inr hf, hkeyed⟩
    · rintro ⟨rfl | hf, hkeyed⟩
      · exact .inl ⟨rfl, hkeyed⟩
      · exact .inr ⟨hf, hkeyed⟩

theorem mem_getD_buildPythonModuleMap : f ∈ (buildPythonModuleMap paths key).getD [] ↔
    f ∈ paths ∧ ∃ s, stem f = some s ∧ Keyed (importRoots paths) s key := by
  have hsort : ∀ found : Option (List Path), f ∈ (found.map sortDedup).getD [] ↔ f ∈ found.getD [] := by
    intro found
    cases found with
    | none => rfl
    | some files => simp [sortDedup]
  unfold buildPythonModuleMap
  rw [hsort, mem_getD_foldl_register]
  simp

theorem stem_eq_some : stem f = some s ↔ f = s ++ initSuffix ∨ f = s ++ pySuffix ∧ ¬initSuffix <:+ f := by
  unfold stem
  rw [Option.or_eq_some_iff]
  have hsuffix : ∀ suffix t : Path, f.dropSuffix? suffix = some t ↔ f = t ++ suffix := by
    intro suffix t
    simp only [List.dropSuffix?_eq_some_iff, beq_iff_eq]
    exact ⟨fun ⟨_, h, h'⟩ => h' ▸ h, fun h => ⟨suffix, h, rfl⟩⟩
  have hnone : f.dropSuffix? initSuffix = none ↔ ¬initSuffix <:+ f := by
    rw [Option.eq_none_iff_forall_ne_some]
    simp only [ne_eq, hsuffix]
    exact ⟨fun h ⟨t, ht⟩ => h t ht.symm, fun h t ht => h ⟨t, ht.symm⟩⟩
  rw [hsuffix, hsuffix, hnone, and_comm]

theorem dotted_ne_nil : dotted path ≠ [] ↔ path ≠ [] := by
  unfold dotted
  rw [ne_eq, List.map_eq_nil_iff]

/-- A dotted form of the stem of `f`: from the project root, or from a directory below it that is neither a package nor
inside one. -/
def Named (paths : List Path) (key : List Char) (f : Path) : Prop :=
  ∃ s, (f = s ++ initSuffix ∨ f = s ++ pySuffix ∧ ¬initSuffix <:+ f) ∧
    (key = dotted s ∨ ∃ d rest, d ≠ [] ∧ s = d ++ '/' :: rest ∧ key = dotted rest ∧ OutsidePackages paths d)

/-- The root that a key comes from lies above the file itself, whatever file it was found by. -/
theorem keyed_iff_named (hf : f ∈ paths) :
    (∃ s, stem f = some s ∧ Keyed (importRoots paths) s key) ↔ key ≠ [] ∧ Named paths key f := by
  constructor
  · rintro ⟨s, hstem, root, hroot, rel, hrel, hne, rfl⟩
    refine ⟨dotted_ne_nil.mpr hne, s, stem_eq_some.mp hstem, ?_⟩
    rcases relTo_eq_some.mp hrel with ⟨-, rfl⟩ | ⟨hbelow, hsplit⟩
    · exact .inl rfl
    · exact .inr ⟨root, rel, hbelow, hsplit, rfl, ((mem_importRoots.mp hroot).resolve_left hbelow).2⟩
  · rintro ⟨hne, s, hstem, rfl | ⟨d, rest, hd, rfl, rfl, houtside⟩⟩
    · refine ⟨s, stem_eq_some.mpr hstem, [], mem_importRoots.mpr (.inl rfl), s, ?_, dotted_ne_nil.mp hne, rfl⟩
      exact relTo_eq_some.mpr (.inl ⟨rfl, rfl⟩)
    · have habove : ∃ below, f = d ++ '/' :: below := by
        rcases hstem with rfl | ⟨rfl, -⟩
        · exact ⟨rest ++ initSuffix, by simp⟩
        · exact ⟨rest ++ pySuffix, by simp⟩
      refine ⟨_, stem_eq_some.mpr hstem, d, ?_, rest, ?_, dotted_ne_nil.mp hne, rfl⟩
      · exact mem_importRoots.mpr (.inr ⟨⟨f, hf, habove⟩, houtside⟩)
      · exact relTo_eq_some.mpr (.inr ⟨hd, rfl⟩)

theorem mem_getD_iff_named :
    f ∈ (buildPythonModuleMap paths key).getD [] ↔ f ∈ paths ∧ key ≠ [] ∧ Named paths key f := by
  rw [mem_getD_buildPythonModuleMap]
  exact and_congr_right keyed_iff_named

theorem buildPythonModuleMap_strict {files : List Path} (h : buildPythonModuleMap paths key = some files) :
    files.Pairwise (· < ·) := by
  obtain ⟨found, -, rfl⟩ := Option.map_eq_some_iff.mp h
  exact inOrder_strict _

/-- What the map lists: each file under the dotted forms of its stem and no other key, and under no empty key. -/
theorem pythonModuleMap_lists (paths : List Path) (key : List Char) :
    (∀ f, f ∈ (buildPythonModuleMap paths key).getD [] ↔ f ∈ paths ∧ key ≠ [] ∧ Named paths key f) ∧
      ∀ files, buildPythonModuleMap paths key = some files → files.Pairwise (· < ·) :=
  ⟨fun _ => mem_getD_iff_named, fun _ => buildPythonModuleMap_strict⟩

/-- A file `.py` has an empty dotted form, which is no key. And an `__init__.py` in the project root makes no package of
it: `src/db.py` is also `db`. -/
theorem pythonModuleMap_root :
    (¬∀ paths key f, f ∈ (buildPythonModuleMap paths key).getD [] ↔ f ∈ paths ∧ Named paths key f) ∧
      ['s', 'r', 'c', '/', 'd', 'b', '.', 'p', 'y'] ∈
        (buildPythonModuleMap [initSuffix.tail, ['s', 'r', 'c', '/', 'd', 'b', '.', 'p', 'y']] ['d', 'b']).getD [] := by
  refine ⟨fun hall => ?_, by decide +kernel⟩
  have hlisted := (hall [pySuffix] [] pySuffix).mpr
    ⟨List.mem_singleton_self _, [], .inr ⟨rfl, by decide⟩, .inl rfl⟩
  rw [mem_getD_iff_named] at hlisted
  exact hlisted.2.1 rfl

/-! ### Relative imports -/

/-- A path ends in `__init__`, and its file is in the set: the key of that file is that of its directory. -/
def SpellsInit (paths : List Path) (path : Path) : Prop := initSuffix <:+ path ++ pySuffix ∧ path ++ pySuffix ∈ paths

/-- Those of the files that a path spells that are in the set. -/
def exactFiles (paths : List Path) (path : Path) : Option (List Path) :=
  let files := (wanted path).filter fun f => f ∈ paths
  if files = [] then none else some files

theorem wanted_strict (path : Path) : (wanted path).Pairwise (· < ·) := by
  unfold wanted
  rw [List.pairwise_pair]
  exact List.append_left_lt (by decide)

theorem length_dotted (path : Path) : (dotted path).length = path.length := List.length_map _

/-- Under the key of a path stand those of its files whose stem it is. -/
theorem mem_wanted_iff (hpath : path ≠ []) (hf : f ∈ wanted path) :
    f ∈ (buildPythonModuleMap paths (dotted path)).getD [] ↔ f ∈ paths ∧ stem f = some path := by
  rw [mem_getD_buildPythonModuleMap]
  refine and_congr_right fun _ => ⟨?_, fun hstem => ?_⟩
  · rintro ⟨s, hstem, root, -, rel, hrel, -, hkey⟩
    -- the key is as long as the path, so the stem is no shorter
    have hlength : path.length ≤ s.length := by
      rw [← length_dotted, hkey, length_dotted]
      rcases relTo_eq_some.mp hrel with ⟨-, rfl⟩ | ⟨-, rfl⟩
      · exact le_rfl
      · simp only [List.length_append, List.length_cons]
        omega
    rw [hstem, Option.some_inj]
    unfold wanted at hf
    rw [List.mem_pair] at hf
    rcases stem_eq_some.mp hstem with rfl | ⟨rfl, hplain⟩ <;> rcases hf with hf | hf
    · have := congrArg List.length hf
      simp only [List.length_append, initSuffix, pySuffix, List.length_cons, List.length_nil] at this
      omega
    · exact List.append_cancel_right hf
    · exact List.append_cancel_right hf
    · exact absurd ⟨path, hf.symm⟩ hplain
  · exact ⟨path, hstem, [], mem_importRoots.mpr (.inl rfl), path, relTo_eq_some.mpr (.inl ⟨rfl, rfl⟩), hpath, rfl⟩

theorem slashed_ne_nil {rest : List Char} (h : rest ≠ []) : slashed rest ≠ [] := by
  unfold slashed
  rwa [ne_eq, List.map_eq_nil_iff]

theorem climb_ne_nil {rest : List Char} (h : climb rest d = some path) : path ≠ [] := by
  fun_induction climb rest d with
  | case1 => cases h
  | case2 rest dir hdir ih => exact ih h
  | case3 => cases h
  | case4 r hne =>
    obtain rfl := Option.some.inj h
    exact slashed_ne_nil hne
  | case5 d hne =>
    obtain rfl := Option.some.inj h
    exact hne
  | case6 d r =>
    obtain rfl := Option.some.inj h
    simp

theorem relativeModulePath_ne_nil {m : List Char} {importer : Path} (h : relativeModulePath m importer = some path) :
    path ≠ [] := by
  unfold relativeModulePath at h
  split at h
  case h_1 => exact climb_ne_nil h
  case h_2 => cases h

/-- How many levels lie above a directory. -/
def depth (dir : Path) : ℕ := if dir = [] then 0 else (dirs dir).length + 1

theorem dirs_of_dirs_cons {above : List Path} (h : dirs path = d :: above) : dirs d = above := by
  unfold dirs at h
  generalize path.reverse = back at h
  induction back with
  | nil => cases h
  | cons c back ih =>
    rw [dirsBack] at h
    split_ifs at h with hc
    · obtain ⟨rfl, rfl⟩ := List.cons_eq_cons.mp h
      exact dirs_reverse back
    · exact ih h

theorem depth_dirOf_le (path : Path) : depth (dirOf path) ≤ (dirs path).length := by
  unfold dirOf depth
  cases hdirs : dirs path with
  | nil => exact le_rfl
  | cons d above =>
    rw [List.head?_cons, Option.getD_some, dirs_of_dirs_cons hdirs]
    split_ifs <;> simp

/-- More dots than there are levels climb above the project root. -/
theorem climb_eq_none {rest : List Char} (k : ℕ) (h : depth d < k) : climb (List.replicate k '.' ++ rest) d = none := by
  induction k generalizing d with
  | zero => omega
  | succ k ih =>
    rw [List.replicate_succ, List.cons_append, climb]
    split_ifs with hd
    · rfl
    · have hle := depth_dirOf_le d
      have hdepth : depth d = (dirs d).length + 1 := if_neg hd
      exact ih (by omega)

/-- The module path has more dots after the first than there are directories above the importer. -/
def ClimbsAboveRoot (m : List Char) (importer : Path) : Prop :=
  ∃ k rest, m = List.replicate (k + 1) '.' ++ rest ∧ (dirs importer).length < k

theorem projectModuleFilesFrom_above {m : List Char} {importer : Path} (h : ClimbsAboveRoot m importer)
    (map : ModuleMap) : projectModuleFilesFrom m importer map = none := by
  obtain ⟨k, rest, rfl, hk⟩ := h
  have hle := depth_dirOf_le importer
  have hnone : relativeModulePath (List.replicate (k + 1) '.' ++ rest) importer = none := climb_eq_none k (by omega)
  unfold projectModuleFilesFrom
  rw [if_neg (by rw [List.replicate_succ]; simp), hnone]
  rfl

/-- The answer for a relative path, in terms of the list under its key. -/
theorem projectModuleFilesFrom_relative {m : List Char} {importer : Path}
    (h : relativeModulePath m importer = some path) (map : ModuleMap) : projectModuleFilesFrom m importer map =
      if ((map (dotted path)).getD []).filter (fun f => f ∈ wanted path) = [] then none
      else some (((map (dotted path)).getD []).filter fun f => f ∈ wanted path) := by
  have hdot : ['.'] <+: m := by
    unfold relativeModulePath at h
    split at h
    case h_1 rest => exact ⟨rest, rfl⟩
    case h_2 => cases h
  unfold projectModuleFilesFrom
  rw [if_neg (not_not_intro hdot), h, Option.bind_some]
  cases map (dotted path) with
  | none => rfl
  | some found => rfl

/-- A relative import finds just the files it spells, unless it spells an `__init__.py` by its own name. -/
theorem projectModuleFilesFrom_eq_iff {m : List Char} {importer : Path}
    (h : relativeModulePath m importer = some path) :
    projectModuleFilesFrom m importer (buildPythonModuleMap paths) = exactFiles paths path ↔
      ¬SpellsInit paths path := by
  rw [projectModuleFilesFrom_relative h]
  unfold exactFiles
  dsimp only
  have hinj : ∀ l l' : List Path,
      (if l = [] then none else some l) = (if l' = [] then none else some l') ↔ l = l' := by
    intro l l'
    split_ifs <;> simp_all
  rw [hinj]
  have hpath := relativeModulePath_ne_nil h
  have hfound : ((buildPythonModuleMap paths (dotted path)).getD []).Pairwise (· < ·) := by
    cases hmap : buildPythonModuleMap paths (dotted path) with
    | none => exact List.Pairwise.nil
    | some files => exact buildPythonModuleMap_strict hmap
  constructor
  · rintro heq ⟨hinit, hin⟩
    have hmem : path ++ pySuffix ∈ (wanted path).filter fun f => f ∈ paths := by
      simp [wanted, hin]
    rw [← heq, List.mem_filter] at hmem
    have hstem := ((mem_wanted_iff hpath (by simp [wanted])).mp hmem.1).2
    -- a path that ends in `__init__` has no module file of its own
    rcases stem_eq_some.mp hstem with hsame | ⟨-, hplain⟩
    · have := congrArg List.length hsame
      simp [initSuffix, pySuffix] at this
    · exact hplain hinit
  · intro hspells
    refine eq_of_strict (k := id) (hfound.filter _) ((wanted_strict path).filter _) fun f => ?_
    rw [List.mem_filter, List.mem_filter, decide_eq_true_eq, decide_eq_true_eq, and_comm]
    refine and_congr_right fun hf => ?_
    rw [mem_wanted_iff hpath hf]
    refine and_iff_left_of_imp fun hin => stem_eq_some.mpr ?_
    rcases List.mem_pair.mp hf with rfl | rfl
    · exact .inr ⟨rfl, fun hinit => hspells ⟨hinit, hin⟩⟩
    · exact .inl rfl

/-- Relative imports name the files they spell, and none above the project root, iff no `__init__.py` that is there is
spelled by its own name. -/
theorem relativeImport_exact_iff (paths : List Path) (m : List Char) (importer : Path) :
    ((∀ path, relativeModulePath m importer = some path →
        projectModuleFilesFrom m importer (buildPythonModuleMap paths) = exactFiles paths path) ∧
      (ClimbsAboveRoot m importer → projectModuleFilesFrom m importer (buildPythonModuleMap paths) = none)) ↔
      ∀ path, relativeModulePath m importer = some path → ¬SpellsInit paths path := by
  constructor
  · rintro ⟨hexact, -⟩ path hpath
    exact (projectModuleFilesFrom_eq_iff hpath).mp (hexact path hpath)
  · intro hplain
    refine ⟨fun path hpath => ?_, fun h => projectModuleFilesFrom_above h _⟩
    exact (projectModuleFilesFrom_eq_iff hpath).mpr (hplain path hpath)

/-- `.__init__` in `a/m.py` is `a/__init__`, and `a/__init__.py` stands under `a`. -/
theorem relativeImport_misses_init : ¬∀ paths m importer path, relativeModulePath m importer = some path →
    projectModuleFilesFrom m importer (buildPythonModuleMap paths) = exactFiles paths path := by
  intro hall
  have hinit := hall ['a' :: initSuffix, ['a', '/', 'm', '.', 'p', 'y']]
    ['.', '_', '_', 'i', 'n', 'i', 't', '_', '_'] ['a', '/', 'm', '.', 'p', 'y']
    ['a', '/', '_', '_', 'i', 'n', 'i', 't', '_', '_'] (by decide +kernel)
  revert hinit
  decide +kernel

end CodeGraph.Pipeline.PythonModules
