import CodeGraph.Lib.Settle
import CodeGraph.Pipeline.Correct.Reexports
import CodeGraph.Pipeline.SettleReexports

/-!
# The order of the imports that wait

The rounds are those of `Lib/Settle.lean`: an entry acts when its answer is not empty, and adds its edges. What it is
answered depends on the set of edges, not on their order. So the order of the list makes no difference where no entry
that has an answer gets another one from the edges of a second (`AnswersStay`). It can get one: the answer is taken from
all files of the module, and one of them may export the name already while another waits for it
(`settleReexports_order_matters`).
-/

namespace CodeGraph.Pipeline.PythonModules

open CodeGraph.Lib

variable {nodes : Nodes} {map : ModuleMap} {edges edges' : List ImportEdge} {w a b : Parked} {e : ImportEdge}
  {targets : List ℤ} {waiting waiting' relativeBound : List Parked} {fuel : ℕ}

/-! ### The edges of an entry -/

theorem mem_insertEdge {e' : ImportEdge} : e ∈ insertEdge edges e' ↔ e ∈ edges ∨ e = e' := by
  unfold insertEdge
  split_ifs with h
  · refine ⟨.inl, ?_⟩
    rintro (hold | rfl)
    · exact hold
    · exact h
  · rw [List.mem_append, List.mem_singleton]

/-- The edges that an entry adds. -/
def Adds (w : Parked) (targets : List ℤ) (e : ImportEdge) : Prop :=
  e.source ∈ w.sourceIds ∧ e.target ∈ targets ∧ e.source ≠ e.target ∧ e.relation = w.relation ∧ e.metadata = w.metadata

theorem mem_insertRelationEdges : e ∈ insertRelationEdges edges w targets ↔ e ∈ edges ∨ Adds w targets e := by
  have hinner : ∀ (source : ℤ) (targets : List ℤ) (edges : List ImportEdge),
      e ∈ targets.foldl (fun edges target =>
        if source ≠ target then insertEdge edges ⟨source, target, w.relation, w.metadata⟩ else edges) edges ↔
        e ∈ edges ∨ e.source = source ∧ e.target ∈ targets ∧ source ≠ e.target ∧ e.relation = w.relation ∧
          e.metadata = w.metadata := by
    intro source targets
    induction targets with
    | nil => simp
    | cons target targets ih =>
      intro edges
      rw [List.foldl_cons, ih, List.mem_cons]
      obtain ⟨es, et, er, em⟩ := e
      split_ifs with hne
      · rw [mem_insertEdge]
        simp only [ImportEdge.mk.injEq]
        grind
      · grind
  unfold insertRelationEdges Adds
  generalize w.sourceIds = sources
  induction sources generalizing edges with
  | nil => simp
  | cons source sources ih =>
    rw [List.foldl_cons]
    refine ih.trans ?_
    rw [hinner, List.mem_cons]
    grind

/-! ### What an entry is answered -/

/-- The answer depends on which edges there are. -/
theorem reexportTargets_congr (h : ∀ e, e ∈ edges ↔ e ∈ edges') :
    reexportTargets nodes map edges w = reexportTargets nodes map edges' w := by
  have hrows : ∀ f x, x ∈ edgesOf nodes edges f ↔ x ∈ edgesOf nodes edges' f := by
    intro f x
    unfold edgesOf
    simp only [List.mem_filterMap, h]
  unfold reexportTargets
  rw [pythonReexportTargets_eq le_rfl, pythonReexportTargets_eq le_rfl, Option.getD_some, Option.getD_some]
  refine eq_of_strict (k := id) (inOrder_strict _) (inOrder_strict _) fun t => ?_
  show t ∈ sortDedup _ ↔ t ∈ sortDedup _
  rw [mem_sortDedup_answers (by omega), mem_sortDedup_answers (by omega)]
  constructor
  · rintro ⟨f, hf, rest, hrest, hchain⟩
    exact ⟨f, hf, rest, hrest, hchain.of_mem fun f x => (hrows f x).symm⟩
  · rintro ⟨f, hf, rest, hrest, hchain⟩
    exact ⟨f, hf, rest, hrest, hchain.of_mem hrows⟩

/-! ### The rounds -/

/-- An entry that is answered adds its edges. -/
def bindParked (nodes : Nodes) (map : ModuleMap) (edges : List ImportEdge) (w : Parked) : Option (List ImportEdge) :=
  if reexportTargets nodes map edges w = [] then none
  else some (insertRelationEdges edges w (reexportTargets nodes map edges w))

/-- A round, with what the entries before it in the code's list are worth. -/
def ofRound (relativeBound : List Parked) (r : Round (List ImportEdge) Parked) : Settling :=
  ⟨r.state, r.left, !r.acted.isEmpty, relativeBound ++ r.acted.filter isRelative⟩

theorem settleEntry_ofRound (r : Round (List ImportEdge) Parked) : settleEntry nodes map (ofRound relativeBound r) w =
    ofRound relativeBound (askOne (bindParked nodes map) r w) := by
  unfold settleEntry askOne bindParked
  dsimp only [ofRound]
  by_cases hnone : reexportTargets nodes map r.state w = []
  · rw [if_pos hnone, if_pos hnone]
  · rw [if_neg hnone, if_neg hnone]
    cases hrelative : isRelative w with
    | true => simp [hrelative]
    | false => simp [hrelative]

theorem foldl_settleEntry (r : Round (List ImportEdge) Parked) :
    waiting.foldl (settleEntry nodes map) (ofRound relativeBound r) =
      ofRound relativeBound (waiting.foldl (askOne (bindParked nodes map)) r) := by
  induction waiting generalizing r with
  | nil => rfl
  | cons w waiting ih => rw [List.foldl_cons, List.foldl_cons, settleEntry_ofRound, ih]

/-- What the rounds leave: the edges, the entries that were not answered, and after those that were there the relative
ones among those that were. -/
theorem settlePythonReexports_eq : settlePythonReexports nodes map fuel edges waiting relativeBound =
    (settle (bindParked nodes map) fuel edges waiting).map fun r =>
      ⟨r.state, r.left, relativeBound ++ r.acted.filter isRelative⟩ := by
  induction fuel generalizing edges waiting relativeBound with
  | zero => rfl
  | succ fuel ih =>
    have hround : waiting.foldl (settleEntry nodes map) ⟨edges, [], false, relativeBound⟩ =
        ofRound relativeBound (askRound (bindParked nodes map) edges waiting) := by
      have hstart : (⟨edges, [], false, relativeBound⟩ : Settling) = ofRound relativeBound ⟨edges, [], []⟩ := by
        simp [ofRound]
      rw [hstart, foldl_settleEntry]
      rfl
    rw [settlePythonReexports, settle, hround]
    simp only [ofRound, Bool.not_not]
    split_ifs with hlast
    · rfl
    · rw [ih, Option.map_map]
      refine congrFun (congrArg Option.map (funext fun r => ?_)) _
      simp

/-! ### Orders -/

/-- The edges there are. -/
def edgeSet (edges : List ImportEdge) : Set ImportEdge := {e | e ∈ edges}

theorem edgeSet_eq_iff : edgeSet edges = edgeSet edges' ↔ ∀ e, e ∈ edges ↔ e ∈ edges' := Set.ext_iff

theorem bindParked_decides : Decides (bindParked nodes map) edgeSet := by
  intro edges edges' w hview
  have hsame := edgeSet_eq_iff.mp hview
  unfold bindParked
  rw [reexportTargets_congr hsame]
  split_ifs
  · rfl
  · refine congrArg some (edgeSet_eq_iff.mpr fun e => ?_)
    rw [mem_insertRelationEdges, mem_insertRelationEdges, hsame]

/-- Wherever some entries have been bound, an entry that has an answer keeps it when another one is bound. -/
def AnswersStay (nodes : Nodes) (map : ModuleMap) (edges : List ImportEdge) (waiting : List Parked) : Prop :=
  ∀ before a b rest now, (before ++ a :: b :: rest).Perm waiting → run (bindParked nodes map) edges before = some now →
    reexportTargets nodes map now a ≠ [] → reexportTargets nodes map now b ≠ [] →
    reexportTargets nodes map (insertRelationEdges now b (reexportTargets nodes map now b)) a =
      reexportTargets nodes map now a

theorem bindParked_eq_some {now : List ImportEdge} (h : bindParked nodes map edges w = some now) :
    reexportTargets nodes map edges w ≠ [] ∧
      insertRelationEdges edges w (reexportTargets nodes map edges w) = now := by
  unfold bindParked at h
  split_ifs at h with hnone
  exact ⟨hnone, Option.some_inj.mp h⟩

/-- Two entries that keep their answers add the same edges in either order. -/
theorem AnswersStay.commute (h : AnswersStay nodes map edges waiting) :
    Commute (bindParked nodes map) edgeSet edges waiting := by
  intro before a b rest now nowa nowb hperm hrun ha hb
  obtain ⟨hane, rfl⟩ := bindParked_eq_some ha
  obtain ⟨hbne, rfl⟩ := bindParked_eq_some hb
  have hswap : (before ++ b :: a :: rest).Perm waiting := ((List.Perm.swap a b rest).append_left before).trans hperm
  have hakeeps := h before a b rest now hperm hrun hane hbne
  have hbkeeps := h before b a rest now hswap hrun hbne hane
  refine ⟨insertRelationEdges (insertRelationEdges now a (reexportTargets nodes map now a)) b
      (reexportTargets nodes map now b),
    insertRelationEdges (insertRelationEdges now b (reexportTargets nodes map now b)) a
      (reexportTargets nodes map now a), ?_, ?_, ?_⟩
  · unfold bindParked
    rw [hbkeeps, if_neg hbne]
  · unfold bindParked
    rw [hakeeps, if_neg hane]
  · refine edgeSet_eq_iff.mpr fun e => ?_
    simp only [mem_insertRelationEdges]
    exact or_right_comm

/-- The pass ends, and where answers stay it leaves the same for every order of the list. -/
theorem settleReexports_confluent (nodes : Nodes) (map : ModuleMap) (edges : List ImportEdge)
    (waiting relativeBound : List Parked) :
    (∀ fuel, waiting.length < fuel → ∃ r, settlePythonReexports nodes map fuel edges waiting relativeBound = some r) ∧
    (AnswersStay nodes map edges waiting → ∀ waiting', waiting'.Perm waiting → ∀ fuel fuel' r r',
      settlePythonReexports nodes map fuel edges waiting relativeBound = some r →
      settlePythonReexports nodes map fuel' edges waiting' relativeBound = some r' →
      (∀ e, e ∈ r.edges ↔ e ∈ r'.edges) ∧ r.waiting.Perm r'.waiting ∧ r.relativeBound.Perm r'.relativeBound) := by
  refine ⟨fun fuel hfuel => ?_, fun hstay waiting' hperm fuel fuel' r r' hr hr' => ?_⟩
  · have hsettle : ∃ r, settle (bindParked nodes map) fuel edges waiting = some r := exists_settle hfuel
    obtain ⟨r, hr⟩ := hsettle
    exact ⟨_, by rw [settlePythonReexports_eq, hr]; rfl⟩
  · rw [settlePythonReexports_eq] at hr hr'
    obtain ⟨x, hx, rfl⟩ := Option.map_eq_some_iff.mp hr
    obtain ⟨x', hx', rfl⟩ := Option.map_eq_some_iff.mp hr'
    have hsettled : Settled (bindParked nodes map) edges waiting x := settled_of_settle hx
    have hsettled' : Settled (bindParked nodes map) edges waiting x' := by
      have h := settled_of_settle hx'
      exact ⟨h.run, h.perm.trans hperm, h.stuck⟩
    obtain ⟨hedges, hacted, hleft⟩ := settled_unique bindParked_decides hstay.commute hsettled hsettled'
    exact ⟨edgeSet_eq_iff.mp hedges, hleft, (hacted.filter _).append_left _⟩

/-! ### An order that matters -/

def plainImport (m : Char) : ImportMeta := ⟨some [m], false, false, false, none⟩

/-- The modules of the files `p`, `q`, `r` and `s`, and a node `X` in `u` and in `v`. -/
def sampleNodes : Nodes := fun i => List.lookup i [(1, ⟨"<module>", ['p']⟩), (2, ⟨"<module>", ['q']⟩),
  (3, ⟨"<module>", ['r']⟩), (4, ⟨"<module>", ['s']⟩), (5, ⟨"X", ['u']⟩), (6, ⟨"X", ['v']⟩)]

/-- The module `o` is two files. -/
def sampleModules : ModuleMap := fun key => List.lookup key [(['o'], [['p'], ['q']]), (['s'], [['s']]), (['u'], [['u']]),
  (['v'], [['v']])]

/-- `p` exports the `X` of `u`, and `s` that of `v`. -/
def sampleImports : List ImportEdge := [⟨1, 5, "imports", plainImport 'u'⟩, ⟨4, 6, "imports", plainImport 'v'⟩]

/-- `from o import X` in `r`. -/
def waitsForBoth : Parked := ⟨['r'], "X", "imports", plainImport 'o', [3], [['p'], ['q']]⟩

/-- `from s import X` in `q`. -/
def waitsForOne : Parked := ⟨['q'], "X", "imports", plainImport 's', [2], [['s']]⟩

/-- `from u import X` again in `r`, which `p` answers alone. -/
def waitsForFirst : Parked := ⟨['r'], "X", "imports", plainImport 'u', [3], [['p']]⟩

theorem settleReexports_confluent_sample : ∀ fuel r r',
    settlePythonReexports sampleNodes sampleModules fuel sampleImports [waitsForFirst, waitsForOne] [] = some r →
    settlePythonReexports sampleNodes sampleModules fuel sampleImports [waitsForOne, waitsForFirst] [] = some r' →
    ∀ e, e ∈ r.edges ↔ e ∈ r'.edges := by
  have hstay : AnswersStay sampleNodes sampleModules sampleImports [waitsForFirst, waitsForOne] := by
    intro before a b rest now hperm hrun
    have hlength := hperm.length_eq
    simp only [List.length_append, List.length_cons, List.length_nil] at hlength
    obtain rfl := List.length_eq_zero_iff.mp (by omega : before.length = 0)
    obtain rfl := List.length_eq_zero_iff.mp (by omega : rest.length = 0)
    obtain rfl := Option.some_inj.mp hrun
    rcases List.mem_pair.mp (hperm.mem_iff.mp List.mem_cons_self) with rfl | rfl
    · obtain rfl := List.singleton_perm_singleton.mp (List.Perm.cons_inv hperm)
      intro _ _
      decide +kernel
    · obtain rfl := List.singleton_perm_singleton.mp (List.Perm.cons_inv (hperm.trans (List.Perm.swap _ _ _)))
      intro _ _
      decide +kernel
  intro fuel r r' hr hr'
  exact ((settleReexports_confluent _ _ _ _ _).2 hstay _ (List.Perm.swap _ _ _) _ _ _ _ hr hr').1

/-- The answer of the first entry is the `X` of `u`, and both nodes once the second one is bound. -/
theorem settleReexports_order_matters : ∃ r r',
    settlePythonReexports sampleNodes sampleModules 3 sampleImports [waitsForBoth, waitsForOne] [] = some r ∧
    settlePythonReexports sampleNodes sampleModules 3 sampleImports [waitsForOne, waitsForBoth] [] = some r' ∧
    ⟨3, 6, "imports", plainImport 'o'⟩ ∈ r'.edges ∧ ⟨3, 6, "imports", plainImport 'o'⟩ ∉ r.edges := by
  refine ⟨_, _, rfl, rfl, ?_, ?_⟩
  · decide +kernel
  · decide +kernel

end CodeGraph.Pipeline.PythonModules
