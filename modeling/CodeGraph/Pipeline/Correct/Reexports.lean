import CodeGraph.Lib.Bfs
import CodeGraph.Pipeline.PythonModules

/-!
# What a module re-exports

`answers` is the recursion without the state: with enough fuel `reexportsOf` gives it and leaves `on_path` as it was.
A target is answered iff a chain of re-exports of at most eight steps ends in its file. That the recursion never enters
a file twice loses none of them: along a shortest chain the distance to the end falls with every step, so no file comes
back.
-/

namespace CodeGraph.Pipeline.PythonModules

open CodeGraph.Lib

variable {edges : Path → List ReexportEdge} {map : ModuleMap} {name : String} {t : ℤ} {file f : Path} {P : OnPath}
  {fuel d k : ℕ} {files moduleFiles : List Path}

/-! ### The recursion without the state -/

/-- An edge verifies where its target lies in the files of its module, or is re-exported by one of them. -/
def verifies (map : ModuleMap) (answer : Path → String → List ℤ) (file : Path) (e : ReexportEdge) : Bool :=
  match projectModuleFilesFrom e.pythonModule file map with
  | none => false
  | some files => files.contains e.targetPath || files.any fun f => (answer f e.targetName).contains e.target

def answers (edges : Path → List ReexportEdge) (map : ModuleMap) : ℕ → Path → String → OnPath → List ℤ
  | 0, _, _, _ => []
  | fuel + 1, file, name, onPath =>
    if reexportMaxDepth < onPath.card ∨ (file, name) ∈ onPath then []
    else
      let matched := (edges file).filter fun e => e.targetName = name
      if matched.any fun e => e.sources.isSome then []
      else
        (matched.filter
          (verifies map (fun f name' => answers edges map fuel f name' (insert (file, name) onPath)) file)).map
          ReexportEdge.target

section Loops

variable {reexports : Path → String → OnPath → Answer} {answer : Path → String → List ℤ}

theorem verifyIn_eq (h : ∀ f name, reexports f name P = some (answer f name, P)) (verified : Bool) :
    verifyIn reexports t name files verified P =
      some (verified || files.any fun f => (answer f name).contains t, P) := by
  induction files generalizing verified with
  | nil => simp [verifyIn]
  | cons f files ih =>
    rw [verifyIn]
    cases verified with
    | true => rfl
    | false =>
      rw [if_neg Bool.false_ne_true, h, Option.bind_some, ih, List.any_cons, Bool.false_or]

theorem followEdges_eq (h : ∀ f name, reexports f name P = some (answer f name, P)) (rows : List ReexportEdge)
    (out : List ℤ) : followEdges reexports map file rows out P =
      some (out ++ (rows.filter (verifies map answer file)).map ReexportEdge.target, P) := by
  induction rows generalizing out with
  | nil => simp [followEdges]
  | cons e rows ih =>
    rw [followEdges, List.filter_cons]
    unfold verifies
    cases projectModuleFilesFrom e.pythonModule file map with
    | none =>
      dsimp only
      rw [ih, if_neg Bool.false_ne_true]
      rfl
    | some files =>
      dsimp only
      rw [verifyIn_eq h, Option.bind_some, ih]
      dsimp only
      split_ifs
      · rw [List.map_cons, List.append_assoc]
        rfl
      · rfl

end Loops

/-- The recursion ends, and every way out takes its own key off the path again. -/
theorem reexportsOf_eq (hpos : 0 < fuel) (hfuel : reexportMaxDepth + 2 ≤ fuel + P.card) :
    reexportsOf edges map fuel file name P = some (answers edges map fuel file name P, P) := by
  induction fuel generalizing file name P with
  | zero => omega
  | succ fuel ih =>
    rw [reexportsOf, answers]
    dsimp only
    split_ifs with hblocked hmany
    · rfl
    · push Not at hblocked
      rw [Finset.erase_insert hblocked.2]
    · push Not at hblocked
      have hcard : (insert (file, name) P).card = P.card + 1 := Finset.card_insert_of_notMem hblocked.2
      have hrec : ∀ f name', reexportsOf edges map fuel f name' (insert (file, name) P) =
          some (answers edges map fuel f name' (insert (file, name) P), insert (file, name) P) :=
        fun f name' => ih (by omega) (by omega)
      rw [followEdges_eq hrec, Option.map_some, List.nil_append, Finset.erase_insert hblocked.2]

/-! ### Chains -/

/-- `e` leads from `f` under `name` to `t`, by way of `files`, and `f` imports the name from one module only. -/
structure Exports (edges : Path → List ReexportEdge) (map : ModuleMap) (name : String) (t : ℤ) (f : Path)
    (e : ReexportEdge) (files : List Path) : Prop where
  single : ∀ e' ∈ edges f, e'.targetName = name → e'.sources = none
  mem : e ∈ edges f
  named : e.targetName = name
  target : e.target = t
  resolves : projectModuleFilesFrom e.pythonModule f map = some files

/-- A chain of files, each of which re-exports `t` by way of the next. -/
inductive ReexportChain (edges : Path → List ReexportEdge) (map : ModuleMap) (name : String) (t : ℤ) : List Path → Prop
  | last {f : Path} {e : ReexportEdge} {files : List Path} (h : Exports edges map name t f e files)
      (hown : e.targetPath ∈ files) : ReexportChain edges map name t [f]
  | more {f f' : Path} {e : ReexportEdge} {files rest : List Path} (h : Exports edges map name t f e files)
      (hnext : f' ∈ files) (hrest : ReexportChain edges map name t (f' :: rest)) :
      ReexportChain edges map name t (f :: f' :: rest)

/-- From the end of a chain to its start, one step. -/
def Leads (edges : Path → List ReexportEdge) (map : ModuleMap) (name : String) (t : ℤ) (f' f : Path) : Prop :=
  ∃ e files, Exports edges map name t f e files ∧ f' ∈ files

def ends (edges : Path → List ReexportEdge) (map : ModuleMap) (name : String) (t : ℤ) : Set Path :=
  {f | ∃ e files, Exports edges map name t f e files ∧ e.targetPath ∈ files}

theorem exists_chain_iff : (∃ rest, rest.length = k ∧ ReexportChain edges map name t (f :: rest)) ↔
    ∃ g ∈ ends edges map name t, Walk (Leads edges map name t) k g f := by
  induction k generalizing f with
  | zero =>
    constructor
    · rintro ⟨rest, hrest, hchain⟩
      obtain rfl := List.length_eq_zero_iff.mp hrest
      cases hchain with
      | last h hown => exact ⟨f, ⟨_, _, h, hown⟩, rfl⟩
    · rintro ⟨g, ⟨e, files, h, hown⟩, rfl⟩
      exact ⟨[], rfl, .last h hown⟩
  | succ k ih =>
    constructor
    · rintro ⟨rest, hrest, hchain⟩
      cases hchain with
      | last => cases hrest
      | @more _ f' e files rest h hnext hchain =>
        obtain ⟨g, hg, hwalk⟩ := ih.mp ⟨rest, Nat.succ.inj hrest, hchain⟩
        exact ⟨g, hg, f', hwalk, e, files, h, hnext⟩
    · rintro ⟨g, hg, f', hwalk, e, files, h, hnext⟩
      obtain ⟨rest, hrest, hchain⟩ := ih.mpr ⟨g, hg, hwalk⟩
      exact ⟨f' :: rest, congrArg (· + 1) hrest, .more h hnext hchain⟩

/-! ### What is answered -/

theorem any_isSome_iff : (((edges file).filter fun e => e.targetName = name).any fun e => e.sources.isSome) = false ↔
    ∀ e ∈ edges file, e.targetName = name → e.sources = none := by
  simp

theorem mem_answers_succ : t ∈ answers edges map (fuel + 1) file name P ↔
    P.card ≤ reexportMaxDepth ∧ (file, name) ∉ P ∧ ∃ e files, Exports edges map name t file e files ∧
      (e.targetPath ∈ files ∨ ∃ f ∈ files, t ∈ answers edges map fuel f name (insert (file, name) P)) := by
  rw [answers]
  dsimp only
  -- the walk is too deep or was here, the name has several sources, or it goes on
  split_ifs with hblocked hmany
  · refine iff_of_false List.not_mem_nil ?_
    rintro ⟨hdepth, hnew, -⟩
    rcases hblocked with hdeep | hmem
    · omega
    · exact hnew hmem
  · refine iff_of_false List.not_mem_nil ?_
    rintro ⟨-, -, e, files, h, -⟩
    rw [any_isSome_iff.mpr h.single] at hmany
    cases hmany
  · push Not at hblocked
    rw [Bool.not_eq_true, any_isSome_iff] at hmany
    rw [and_iff_right hblocked.1, and_iff_right hblocked.2]
    simp only [List.mem_map, List.mem_filter, decide_eq_true_eq]
    constructor
    · rintro ⟨e, ⟨⟨hmem, hname⟩, hverified⟩, htarget⟩
      unfold verifies at hverified
      cases hfiles : projectModuleFilesFrom e.pythonModule file map with
      | none =>
        rw [hfiles] at hverified
        cases hverified
      | some files =>
        rw [hfiles] at hverified
        subst hname htarget
        refine ⟨e, files, ⟨hmany, hmem, rfl, rfl, hfiles⟩, ?_⟩
        simpa using hverified
    · rintro ⟨e, files, h, hverified⟩
      refine ⟨e, ⟨⟨h.mem, h.named⟩, ?_⟩, h.target⟩
      unfold verifies
      rw [h.resolves, h.named, h.target]
      simpa using hverified

/-- What is answered has a chain that is no deeper than the rest of the depth. -/
theorem exists_walk_of_mem_answers (h : t ∈ answers edges map fuel f name P) :
    ∃ k, P.card + k ≤ reexportMaxDepth ∧ ∃ g ∈ ends edges map name t, Walk (Leads edges map name t) k g f := by
  induction fuel generalizing f P with
  | zero => cases h
  | succ fuel ih =>
    obtain ⟨hdepth, hnew, e, files, hexports, hown | ⟨f', hf', hmem⟩⟩ := mem_answers_succ.mp h
    · exact ⟨0, hdepth, f, ⟨e, files, hexports, hown⟩, rfl⟩
    · obtain ⟨k, hk, g, hg, hwalk⟩ := ih hmem
      rw [Finset.card_insert_of_notMem hnew] at hk
      exact ⟨k + 1, by omega, g, hg, f', hwalk, e, files, hexports, hf'⟩

/-- A file at distance `d` from the end answers, where no file on the path is as near. -/
theorem mem_answers_of_atDist (h : AtDist (Leads edges map name t) (ends edges map name t) d f) (hfuel : d < fuel)
    (hdepth : P.card + d ≤ reexportMaxDepth)
    (hfar : ∀ g d', (g, name) ∈ P → AtDist (Leads edges map name t) (ends edges map name t) d' g → d < d') :
    t ∈ answers edges map fuel f name P := by
  induction d generalizing fuel f P with
  | zero =>
    obtain ⟨fuel, rfl⟩ := Nat.exists_eq_succ_of_ne_zero hfuel.ne'
    obtain ⟨e, files, hexports, hown⟩ := atDist_zero_iff.mp h
    have hnew : (f, name) ∉ P := fun hmem => lt_irrefl _ (hfar f 0 hmem h)
    exact mem_answers_succ.mpr ⟨by omega, hnew, e, files, hexports, .inl hown⟩
  | succ d ih =>
    obtain ⟨fuel, rfl⟩ := Nat.exists_eq_succ_of_ne_zero (Nat.ne_zero_of_lt hfuel)
    have hnew : (f, name) ∉ P := fun hmem => lt_irrefl _ (hfar f (d + 1) hmem h)
    obtain ⟨f', hf', e, files, hexports, hnext⟩ := h.pred
    have hcard : (insert (f, name) P).card = P.card + 1 := Finset.card_insert_of_notMem hnew
    refine mem_answers_succ.mpr ⟨by omega, hnew, e, files, hexports, .inr ⟨f', hnext, ?_⟩⟩
    refine ih hf' (by omega) (by omega) fun g d' hmem hdist => ?_
    rcases Finset.mem_insert.mp hmem with heq | hmem
    · obtain ⟨rfl, -⟩ := Prod.ext_iff.mp heq
      have hsame : d' = d + 1 := hdist.unique h
      omega
    · have := hfar g d' hmem hdist
      omega

/-- From an empty path just the ends of chains of at most eight steps are answered. -/
theorem mem_answers_iff (hfuel : reexportMaxDepth < fuel) : t ∈ answers edges map fuel f name ∅ ↔
    ∃ rest, rest.length ≤ reexportMaxDepth ∧ ReexportChain edges map name t (f :: rest) := by
  constructor
  · intro h
    obtain ⟨k, hk, hwalk⟩ := exists_walk_of_mem_answers h
    obtain ⟨rest, hrest, hchain⟩ := exists_chain_iff.mpr hwalk
    rw [Finset.card_empty] at hk
    exact ⟨rest, by omega, hchain⟩
  · rintro ⟨rest, hrest, hchain⟩
    obtain ⟨g, hg, hwalk⟩ := exists_chain_iff.mp ⟨rest, rfl, hchain⟩
    obtain ⟨d, hd, hdist⟩ := exists_atDist hg hwalk
    refine mem_answers_of_atDist hdist (by omega) ?_ fun g d' hmem => absurd hmem (Finset.notMem_empty _)
    rw [Finset.card_empty]
    omega

/-! ### The targets of a module -/

theorem reexportsIn_eq (hfuel : reexportMaxDepth + 2 ≤ fuel) (out : List ℤ) :
    reexportsIn fuel edges map name moduleFiles out ∅ =
      some (out ++ moduleFiles.flatMap fun f => answers edges map fuel f name ∅, ∅) := by
  induction moduleFiles generalizing out with
  | nil => simp [reexportsIn]
  | cons f moduleFiles ih =>
    rw [reexportsIn, reexportsOf_eq (by omega) (by omega), Option.bind_some, ih, List.flatMap_cons, List.append_assoc]

theorem pythonReexportTargets_eq (hfuel : reexportMaxDepth + 2 ≤ fuel) :
    pythonReexportTargets fuel edges moduleFiles name map =
      some (sortDedup (moduleFiles.flatMap fun f => answers edges map fuel f name ∅)) := by
  unfold pythonReexportTargets
  rw [reexportsIn_eq hfuel, Option.map_some, List.nil_append]

theorem mem_sortDedup_answers (hfuel : reexportMaxDepth < fuel) :
    t ∈ sortDedup (moduleFiles.flatMap fun f => answers edges map fuel f name ∅) ↔
      ∃ f ∈ moduleFiles, ∃ rest, rest.length ≤ reexportMaxDepth ∧ ReexportChain edges map name t (f :: rest) := by
  unfold sortDedup
  rw [mem_inOrder, List.mem_toFinset, List.mem_flatMap]
  simp only [mem_answers_iff hfuel]

/-- Neither the order of the rows nor their number matters to a chain. -/
theorem ReexportChain.of_mem {edges' : Path → List ReexportEdge} (h : ∀ f e, e ∈ edges' f ↔ e ∈ edges f) {l : List Path}
    (hchain : ReexportChain edges map name t l) : ReexportChain edges' map name t l := by
  have hexports : ∀ {f e files}, Exports edges map name t f e files → Exports edges' map name t f e files := by
    intro f e files hexports
    exact { hexports with
      single := fun e' he' => hexports.single e' ((h f e').mp he')
      mem := (h f e).mpr hexports.mem }
  induction hchain with
  | last h hown => exact .last (hexports h) hown
  | more h hnext _ ih => exact .more (hexports h) hnext ih

/-- The targets of a name are those with a chain of at most eight steps from one of the module's files, each once, in
order, whatever the order of the rows and of the files. Every call leaves `on_path` empty. -/
theorem reexports_chains (edges : Path → List ReexportEdge) (map : ModuleMap) (moduleFiles : List Path)
    (name : String) : ∃ targets : List ℤ,
      (∀ fuel, reexportMaxDepth + 2 ≤ fuel → ∀ (edges' : Path → List ReexportEdge) (moduleFiles' : List Path),
        (∀ f, (edges' f).Perm (edges f)) → moduleFiles'.Perm moduleFiles →
          pythonReexportTargets fuel edges' moduleFiles' name map = some targets) ∧
      targets.Pairwise (· < ·) ∧
      (∀ t, t ∈ targets ↔
        ∃ f ∈ moduleFiles, ∃ rest, rest.length ≤ 8 ∧ ReexportChain edges map name t (f :: rest)) ∧
      ∀ fuel, reexportMaxDepth + 2 ≤ fuel → ∀ f, ∃ found, reexportsOf edges map fuel f name ∅ = some (found, ∅) := by
  refine ⟨sortDedup (moduleFiles.flatMap fun f => answers edges map (reexportMaxDepth + 2) f name ∅), ?_,
    inOrder_strict _, fun t => mem_sortDedup_answers (by omega), fun fuel hfuel f => ?_⟩
  · intro fuel hfuel edges' moduleFiles' hedges hfiles
    rw [pythonReexportTargets_eq hfuel, Option.some_inj]
    refine eq_of_strict (k := id) (inOrder_strict _) (inOrder_strict _) fun t => ?_
    show t ∈ sortDedup _ ↔ t ∈ sortDedup _
    rw [mem_sortDedup_answers (by omega), mem_sortDedup_answers (by omega)]
    constructor
    · rintro ⟨f, hf, rest, hrest, hchain⟩
      exact ⟨f, hfiles.mem_iff.mp hf, rest, hrest, hchain.of_mem fun f _ => (hedges f).mem_iff.symm⟩
    · rintro ⟨f, hf, rest, hrest, hchain⟩
      exact ⟨f, hfiles.mem_iff.mpr hf, rest, hrest, hchain.of_mem fun f _ => (hedges f).mem_iff⟩
  · exact ⟨_, reexportsOf_eq (by omega) (by omega)⟩

end CodeGraph.Pipeline.PythonModules
