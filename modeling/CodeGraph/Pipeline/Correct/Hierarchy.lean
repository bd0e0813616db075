import CodeGraph.Lib.Bfs
import CodeGraph.Pipeline.Correct.RecvType

/-!
# Typed calls follow the hierarchy

Where all classes are top-level and no two have one name, a candidate's qualified name gives the one class it belongs to
(`owners_eq`). The search upwards is then a search by levels (`mem_climb`), the one downwards a closure, and
`recvTypeTargets` answers with the method of the class itself, else with those of its nearest ancestors, and the
overrides of its subclasses.
-/

namespace CodeGraph.Pipeline.RecvType

open CodeGraph.Lib

/-! ### What the answer says -/

/-- The methods that a call binds. -/
def RecvTypeTargets.targets : RecvTypeTargets → List TypedNode
  | .bind targets | .ambiguous targets => targets
  | .fallback | .drop => []

def RecvTypeTargets.isAmbiguous : RecvTypeTargets → Bool
  | .ambiguous _ => true
  | _ => false

/-- The classes are top-level, and no two have one name. -/
structure TopLevelClasses (S : ClassIndex) : Prop where
  name : ∀ n ∈ S.nodes, n.ClassLike → ∃ name, classPath n.spelling = [name]
  distinct : ∀ n ∈ S.nodes, n.ClassLike → ∀ m ∈ S.nodes, m.ClassLike →
    classPath n.spelling = classPath m.spelling → n = m

variable {S S' : ClassIndex} {A B T c : TypedNode} {candidates candidates' : List TypedNode} {type callerPath : String}
  {dispatch : Bool} {d k : ℕ}

/-- The method belongs to the class. -/
structure Owner (S : ClassIndex) (A c : TypedNode) : Prop where
  mem : A ∈ S.nodes
  classLike : A.ClassLike
  path : ownerOf c.key = classPath A.spelling

/-- Each candidate belongs to a class, and no two to one. -/
structure OnePerClass (S : ClassIndex) (candidates : List TypedNode) : Prop where
  owned : ∀ c ∈ candidates, ∃ A, Owner S A c
  once : candidates.Pairwise fun c c' => ownerOf c.key ≠ ownerOf c'.key

/-- An `inherits` edge leads from the class up. -/
def Up (S : ClassIndex) (a b : ℕ) : Prop := (a, b) ∈ S.inherits

/-- The method belongs to an ancestor of `T` at the distance `k`. -/
def OwnedAt (S : ClassIndex) (T : TypedNode) (k : ℕ) (c : TypedNode) : Prop :=
  ∃ A, Owner S A c ∧ AtDist (Up S) {T.id} k A.id

/-- No candidate belongs to the class. -/
def NoOwn (S : ClassIndex) (T : TypedNode) (candidates : List TypedNode) : Prop := ∀ c ∈ candidates, ¬Owner S T c

/-- The candidate belongs to one of the nearest ancestors that have one. -/
def Inherited (S : ClassIndex) (T : TypedNode) (candidates : List TypedNode) (c : TypedNode) : Prop :=
  c ∈ candidates ∧ ∃ k, 1 ≤ k ∧ k ≤ 32 ∧ OwnedAt S T k c ∧
    ∀ k', 1 ≤ k' → k' < k → ∀ c' ∈ candidates, ¬OwnedAt S T k' c'

/-- The candidate belongs to a subclass of `T`, at any depth. -/
def Overriding (S : ClassIndex) (T : TypedNode) (candidates : List TypedNode) (c : TypedNode) : Prop :=
  c ∈ candidates ∧ ∃ A, Owner S A c ∧ A.id ≠ T.id ∧ Relation.ReflTransGen (Up S) A.id T.id

/-- The candidates that a call on `T` should bind. -/
def Meant (S : ClassIndex) (T : TypedNode) (dispatch : Bool) (candidates : List TypedNode) (c : TypedNode) : Prop :=
  c ∈ candidates ∧ Owner S T c ∨ NoOwn S T candidates ∧ Inherited S T candidates c ∨
    dispatch = true ∧ Overriding S T candidates c

structure Follows (S : ClassIndex) (T : TypedNode) (dispatch : Bool) (candidates : List TypedNode)
    (answer : RecvTypeTargets) : Prop where
  nodup : answer.targets.Nodup
  targets : ∀ c, c ∈ answer.targets ↔ Meant S T dispatch candidates c
  ambiguous : answer.isAmbiguous = true ↔
    NoOwn S T candidates ∧ ∃ c c', c ≠ c' ∧ Inherited S T candidates c ∧ Inherited S T candidates c'
  fallback : answer = .fallback ↔ ∀ c, ¬Meant S T dispatch candidates c
  not_drop : answer ≠ .drop

/-! ### The class of a candidate -/

theorem TopLevelClasses.byLast_eq (h : TopLevelClasses S) (hA : A ∈ S.nodes) (hclass : A.ClassLike) {name : String}
    (hname : classPath A.spelling = [name]) : S.byLast name = [S.classNode A] := by
  apply single?_eq_some.mp
  apply single?_of_nodup (nodup_byLast S name)
  · have hlast : last A.spelling = some name := by
      rw [last, hname, List.getLast?_singleton]
    exact mem_byLast.mpr ⟨hA, hclass, hlast, rfl⟩
  · intro c hc
    obtain ⟨hn, hlike, hlast, hnode⟩ := mem_byLast.mp hc
    obtain ⟨name', hname'⟩ := h.name c.node hn hlike
    rw [last, hname', List.getLast?_singleton, Option.some.injEq] at hlast
    subst hlast
    rw [← hnode, h.distinct c.node hn hlike A hA hclass (hname'.trans hname.symm)]

theorem owners_eq (h : TopLevelClasses S) (hA : Owner S A c) : S.owners c.key = [S.classNode A] := by
  obtain ⟨name, hname⟩ := h.name A hA.mem hA.classLike
  have hby := h.byLast_eq hA.mem hA.classLike hname
  unfold ClassIndex.owners
  rw [hA.path, hname, List.getLast?_singleton]
  show S.classesFor c.key.1 name = [S.classNode A]
  unfold ClassIndex.classesFor
  rw [hby]
  by_cases hpath : (S.classNode A).node.path = c.key.1
  · simp [hpath]
  · simp [hpath]

theorem Owner.unique (h : TopLevelClasses S) (hA : Owner S A c) (hB : Owner S B c) : A = B :=
  h.distinct A hA.mem hA.classLike B hB.mem hB.classLike (hA.path.symm.trans hB.path)

theorem allIn_iff (h : TopLevelClasses S) (hA : Owner S A c) {set : Finset ℕ} :
    S.allIn set c.key = true ↔ A.id ∈ set := by
  unfold ClassIndex.allIn
  rw [owners_eq h hA]
  simp [ClassIndex.classNode]

theorem allIn_iff_exists (h : TopLevelClasses S) (hc : OnePerClass S candidates) (hmem : c ∈ candidates)
    {set : Finset ℕ} : S.allIn set c.key = true ↔ ∃ A, Owner S A c ∧ A.id ∈ set := by
  obtain ⟨A, hA⟩ := hc.owned c hmem
  rw [allIn_iff h hA]
  constructor
  · exact fun hid => ⟨A, hA, hid⟩
  · rintro ⟨B, hB, hid⟩
    rwa [hA.unique h hB]

/-! ### The search upwards -/

theorem up_nextLevel {seen level : Finset ℕ} {x : ℕ} :
    x ∈ S.nextLevel seen level ↔ (∃ a ∈ level, Up S a x) ∧ x ∉ seen := by
  unfold ClassIndex.nextLevel Up
  rw [Finset.mem_sdiff, List.mem_toFinset, List.mem_map]
  constructor
  · rintro ⟨⟨e, he, rfl⟩, hnew⟩
    rw [List.mem_filter, decide_eq_true_eq] at he
    exact ⟨⟨e.1, he.2, he.1⟩, hnew⟩
  · rintro ⟨⟨a, ha, hax⟩, hnew⟩
    exact ⟨⟨(a, x), List.mem_filter.mpr ⟨hax, decide_eq_true ha⟩, rfl⟩, hnew⟩

theorem climb_sublist (fuel : ℕ) (seen level : Finset ℕ) :
    (S.climb candidates fuel seen level).Sublist candidates := by
  induction fuel generalizing seen level with
  | zero => exact List.nil_sublist candidates
  | succ fuel ih =>
    rw [ClassIndex.climb]
    dsimp only
    split_ifs
    · exact List.nil_sublist candidates
    · exact List.filter_sublist
    · exact ih _ _

/-- From the level at distance `d` on, the search stops at the first level that has a candidate. -/
theorem mem_climb (h : TopLevelClasses S) (hc : OnePerClass S candidates) {fuel : ℕ} {seen level : Finset ℕ}
    (hlevel : Level (Up S) {T.id} d (level : Set ℕ) (seen : Set ℕ)) :
    c ∈ S.climb candidates fuel seen level ↔ c ∈ candidates ∧ ∃ k, d < k ∧ k ≤ d + fuel ∧ OwnedAt S T k c ∧
      ∀ k', d < k' → k' < k → ∀ c' ∈ candidates, ¬OwnedAt S T k' c' := by
  induction fuel generalizing d seen level with
  | zero =>
    refine iff_of_false List.not_mem_nil ?_
    rintro ⟨-, k, hlt, hle, -⟩
    omega
  | succ fuel ih =>
    have hnext : Level (Up S) {T.id} (d + 1) (S.nextLevel seen level : Set ℕ)
        ((seen ∪ S.nextLevel seen level : Finset ℕ) : Set ℕ) := by
      apply hlevel.next
      · exact fun x => up_nextLevel
      · intro x
        simp
    have hown : ∀ c ∈ candidates, (S.allIn (S.nextLevel seen level) c.key = true ↔ OwnedAt S T (d + 1) c) := by
      intro c hmem
      rw [allIn_iff_exists h hc hmem]
      exact exists_congr fun A => and_congr_right fun _ => hnext.frontier A.id
    rw [ClassIndex.climb]
    dsimp only
    split_ifs with hempty hfound
    · -- an empty level: no class is farther away
      have hnone : ∀ x, ¬AtDist (Up S) {T.id} (d + 1) x := by
        intro x hx
        have hx := (hnext.frontier x).mpr hx
        rw [hempty] at hx
        exact Finset.notMem_empty x hx
      refine iff_of_false List.not_mem_nil ?_
      rintro ⟨-, k, hlt, -, ⟨A, -, hdist⟩, -⟩
      exact not_atDist_of_empty hnone (by omega) hdist
    · obtain ⟨c', hc'⟩ := List.exists_mem_of_ne_nil _ hfound
      obtain ⟨hmem', hall⟩ := List.mem_filter.mp hc'
      have hown' := (hown c' hmem').mp hall
      rw [List.mem_filter]
      constructor
      · rintro ⟨hmem, hall⟩
        exact ⟨hmem, d + 1, by omega, by omega, (hown c hmem).mp hall, fun k' _ _ => by omega⟩
      · rintro ⟨hmem, k, hlt, -, howned, hmin⟩
        obtain rfl : k = d + 1 := by
          by_contra hne
          exact hmin (d + 1) (by omega) (by omega) c' hmem' hown'
        exact ⟨hmem, (hown c hmem).mpr howned⟩
    · have hnone : ∀ c ∈ candidates, ¬OwnedAt S T (d + 1) c := by
        intro c hmem howned
        exact hfound (List.ne_nil_of_mem (List.mem_filter.mpr ⟨hmem, (hown c hmem).mpr howned⟩))
      rw [ih hnext]
      refine and_congr_right fun hmem => ?_
      constructor
      · rintro ⟨k, hlt, hle, howned, hmin⟩
        refine ⟨k, by omega, by omega, howned, fun k' hlt' hk' c' hc' => ?_⟩
        by_cases hk : k' = d + 1
        · exact hk ▸ hnone c' hc'
        · exact hmin k' (by omega) hk' c' hc'
      · rintro ⟨k, hlt, hle, howned, hmin⟩
        have hne : k ≠ d + 1 := by
          rintro rfl
          exact hnone c hmem howned
        exact ⟨k, by omega, by omega, howned, fun k' hlt' hk' c' hc' => hmin k' (by omega) hk' c' hc'⟩

theorem mem_inherited (h : TopLevelClasses S) (hc : OnePerClass S candidates) :
    c ∈ S.climb candidates 32 {T.id} {T.id} ↔ Inherited S T candidates c := by
  have hstart : Level (Up S) {T.id} 0 (({T.id} : Finset ℕ) : Set ℕ) (({T.id} : Finset ℕ) : Set ℕ) := by
    rw [Finset.coe_singleton]
    exact level_zero
  rw [mem_climb h hc hstart]
  unfold Inherited
  simp only [Nat.lt_iff_add_one_le, Nat.zero_add]

/-! ### The search downwards -/

theorem up_subclasses {x : ℕ} : x ∈ S.subclasses [T.id] ↔ x ≠ T.id ∧ Relation.ReflTransGen (Up S) x T.id := by
  rw [mem_subclasses, leads_swap]
  rfl

theorem overriding_iff (h : TopLevelClasses S) (hc : OnePerClass S candidates) (hmem : c ∈ candidates) :
    S.allIn (S.subclasses [T.id]) c.key = true ↔ Overriding S T candidates c := by
  rw [allIn_iff_exists h hc hmem]
  unfold Overriding
  simp only [up_subclasses, hmem, true_and]

/-! ### The class itself -/

/-- The candidates that belong to a class of one name. -/
def ownOf (name : String) (candidates : List TypedNode) : List TypedNode :=
  candidates.filter fun c => ownerOf c.key = [name]

theorem mem_ownOf (hT : T ∈ S.nodes) (hclass : T.ClassLike) {name : String} (hname : classPath T.spelling = [name]) :
    c ∈ ownOf name candidates ↔ c ∈ candidates ∧ Owner S T c := by
  unfold ownOf
  rw [List.mem_filter, decide_eq_true_eq, ← hname]
  exact and_congr_right fun _ => ⟨fun h => ⟨hT, hclass, h⟩, fun h => h.path⟩

theorem agrees_singleton {name : String} {key : MethodKey} {m : String} (h : ownerOf key = [m]) :
    agrees [name] key = decide (ownerOf key = [name]) := by
  unfold agrees
  rw [h, Bool.eq_iff_iff]
  simp

/-- Whether the class counts as nested makes no difference: it is the only one of its name. -/
theorem ownMethods_eq (h : TopLevelClasses S) (hc : OnePerClass S candidates) (hT : T ∈ S.nodes)
    (hclass : T.ClassLike) {name : String} (hname : classPath T.spelling = [name]) :
    S.ownMethods [name] name candidates = ownOf name candidates := by
  have hby := h.byLast_eq hT hclass hname
  have hagrees : ∀ c ∈ candidates, agrees [name] c.key = decide (ownerOf c.key = [name]) := by
    intro c hmem
    obtain ⟨A, hA⟩ := hc.owned c hmem
    obtain ⟨m, hm⟩ := h.name A hA.mem hA.classLike
    exact agrees_singleton (hA.path.trans hm)
  have hnested : ∀ c ∈ candidates, ownerOf c.key = [name] → S.inNested [name] c.key = (S.classNode T).nested := by
    intro c _ hown
    have howner : Owner S T c := ⟨hT, hclass, hown.trans hname.symm⟩
    unfold ClassIndex.inNested
    rw [owners_eq h howner, hown]
    simp
  have htop : S.topLevel name = !(S.classNode T).nested := by
    unfold ClassIndex.topLevel
    rw [hby]
    simp
  -- the filters ask whether the class is nested, and there is one class of the name
  have hexact : (candidates.filter fun c => agrees [name] c.key && !S.inNested [name] c.key) =
      if (S.classNode T).nested then [] else ownOf name candidates := by
    split_ifs with hn
    · apply List.filter_eq_nil_iff.mpr
      intro c hmem
      rw [hagrees c hmem, Bool.and_eq_true, decide_eq_true_eq]
      rintro ⟨hown, hnot⟩
      rw [hnested c hmem hown, hn] at hnot
      cases hnot
    · apply List.filter_congr
      intro c hmem
      rw [hagrees c hmem]
      by_cases hown : ownerOf c.key = [name]
      · rw [hnested c hmem hown, Bool.eq_false_iff.mpr hn]
        simp
      · simp [hown]
  -- the other filter has the methods just where the first has none
  have hrest : (candidates.filter fun c => agrees [name] c.key && S.inNested [name] c.key) =
      if (S.classNode T).nested then ownOf name candidates else [] := by
    split_ifs with hn
    · apply List.filter_congr
      intro c hmem
      rw [hagrees c hmem]
      by_cases hown : ownerOf c.key = [name]
      · rw [hnested c hmem hown, hn]
        simp
      · simp [hown]
    · apply List.filter_eq_nil_iff.mpr
      intro c hmem
      rw [hagrees c hmem, Bool.and_eq_true, decide_eq_true_eq]
      rintro ⟨hown, hnot⟩
      exact hn ((hnested c hmem hown).symm.trans hnot)
  unfold ClassIndex.ownMethods
  dsimp only
  rw [hexact, hrest, htop]
  cases (S.classNode T).nested with
  | true => simp
  | false =>
    by_cases hnil : ownOf name candidates = []
    · simp [hnil]
    · simp [hnil]

/-- No class owns two, so at most one candidate is the class's own. -/
theorem ownOf_eq_singleton (hc : OnePerClass S candidates) {name : String} (h : ownOf name candidates ≠ []) :
    ∃ c, ownOf name candidates = [c] := by
  have hpair : (ownOf name candidates).Pairwise fun c c' => ownerOf c.key ≠ ownerOf c'.key := hc.once.filter _
  match hown : ownOf name candidates, h with
  | [c], _ => exact ⟨c, rfl⟩
  | c :: c' :: rest, _ =>
    have hkey : ∀ x ∈ ownOf name candidates, ownerOf x.key = [name] := by
      intro x hx
      exact of_decide_eq_true (List.mem_filter.mp hx).2
    rw [hown] at hpair hkey
    have hne := (List.pairwise_cons.mp hpair).1 c' List.mem_cons_self
    exact absurd ((hkey c List.mem_cons_self).trans (hkey c' (List.mem_cons_of_mem c List.mem_cons_self)).symm) hne

theorem OnePerClass.nodup (hc : OnePerClass S candidates) : candidates.Nodup := by
  refine hc.once.imp ?_
  rintro c c' hne rfl
  exact hne rfl

/-! ### The answer -/

theorem inheritedOrOverridden_follows (h : TopLevelClasses S) (hc : OnePerClass S candidates) (hT : T ∈ S.nodes)
    (hclass : T.ClassLike) {name : String} (hname : classPath T.spelling = [name]) (hown : NoOwn S T candidates) :
    Follows S T dispatch candidates
      (S.inheritedOrOverridden name (S.topLevel name) dispatch candidates callerPath) := by
  have hby := h.byLast_eq hT hclass hname
  -- the climb begins at `T`, the one class of its name
  have hstart : startOf (S.topLevel name) callerPath (S.byLast name) = some (S.classNode T) := by
    have hfits : ((S.byLast name).filter fun c => !S.topLevel name || !c.nested) = [S.classNode T] := by
      unfold ClassIndex.topLevel
      rw [hby]
      simp
    unfold startOf
    dsimp only
    rw [hfits]
    rfl
  let inherited := S.climb candidates 32 {T.id} {T.id}
  let below := S.overridesBelow name dispatch candidates inherited (S.classNode T)
  have hinherited : ∀ c, c ∈ inherited ↔ Inherited S T candidates c := fun c => mem_inherited h hc
  -- the overrides below are those that were not found on the way up
  have hbelow : ∀ c, c ∈ below ↔ dispatch = true ∧ Overriding S T candidates c ∧ c ∉ inherited := by
    intro c
    show c ∈ S.overridesBelow name dispatch candidates inherited (S.classNode T) ↔ _
    unfold ClassIndex.overridesBelow
    rw [hby]
    cases dispatch with
    | false => simp
    | true =>
      rw [if_pos ⟨rfl, rfl⟩, List.mem_filter, decide_eq_true_eq]
      constructor
      · rintro ⟨hmem, hall, hnot⟩
        exact ⟨rfl, (overriding_iff h hc hmem).mp hall, hnot⟩
      · rintro ⟨-, hover, hnot⟩
        exact ⟨hover.1, (overriding_iff h hc hover.1).mpr hover, hnot⟩
  have hnodup : inherited.Nodup := hc.nodup.sublist (climb_sublist 32 _ _)
  have hall : (inherited ++ below).Nodup := by
    refine List.nodup_append.mpr ⟨hnodup, ?_, ?_⟩
    · show (S.overridesBelow name dispatch candidates inherited (S.classNode T)).Nodup
      unfold ClassIndex.overridesBelow
      split_ifs
      · exact hc.nodup.filter _
      · exact List.nodup_nil
    · rintro c hc' _ hc'' rfl
      exact ((hbelow c).mp hc'').2.2 hc'
  -- `T` has no method of its own, so what is meant is above or below
  have hmeant : ∀ c, c ∈ inherited ++ below ↔ Meant S T dispatch candidates c := by
    intro c
    rw [List.mem_append, hinherited, hbelow]
    unfold Meant
    constructor
    · rintro (hi | ⟨hd, hover, -⟩)
      · exact .inr (.inl ⟨hown, hi⟩)
      · exact .inr (.inr ⟨hd, hover⟩)
    · rintro (⟨hmem, howner⟩ | ⟨-, hi⟩ | ⟨hd, hover⟩)
      · exact absurd howner (hown c hmem)
      · exact .inl hi
      · by_cases hi : c ∈ inherited
        · exact .inl ((hinherited c).mp hi)
        · exact .inr ⟨hd, hover, hi⟩
  have htwo : 1 < inherited.length ↔ ∃ c c', c ≠ c' ∧ Inherited S T candidates c ∧ Inherited S T candidates c' := by
    rw [one_lt_length_iff hnodup]
    simp only [hinherited]
  have hanswer : S.inheritedOrOverridden name (S.topLevel name) dispatch candidates callerPath =
      if inherited ++ below = [] then .fallback
      else if 1 < inherited.length then .ambiguous (inherited ++ below)
      else .bind (inherited ++ below) := by
    unfold ClassIndex.inheritedOrOverridden
    rw [hstart]
    rfl
  rw [hanswer]
  -- nothing is found, several methods are inherited, or one is
  split_ifs with hnil hmany
  · have hnone : ∀ c, ¬Meant S T dispatch candidates c := by
      intro c hmean
      have hmem := (hmeant c).mpr hmean
      rw [hnil] at hmem
      cases hmem
    refine ⟨List.nodup_nil, fun c => iff_of_false List.not_mem_nil (hnone c), ?_, iff_of_true rfl hnone, fun hd => ?_⟩
    · refine iff_of_false Bool.false_ne_true ?_
      rintro ⟨-, c, -, -, hi, -⟩
      exact hnone c (.inr (.inl ⟨hown, hi⟩))
    · cases hd
  · obtain ⟨c, hmem⟩ := List.exists_mem_of_ne_nil _ hnil
    refine ⟨hall, hmeant, iff_of_true rfl ⟨hown, htwo.mp hmany⟩, iff_of_false (fun hf => ?_) ?_, fun hd => ?_⟩
    · cases hf
    · exact fun hnone => hnone c ((hmeant c).mp hmem)
    · cases hd
  · obtain ⟨c, hmem⟩ := List.exists_mem_of_ne_nil _ hnil
    refine ⟨hall, hmeant, iff_of_false Bool.false_ne_true ?_, iff_of_false (fun hf => ?_) ?_, fun hd => ?_⟩
    · exact fun hamb => hmany (htwo.mpr hamb.2)
    · cases hf
    · exact fun hnone => hnone c ((hmeant c).mp hmem)
    · cases hd

theorem bindOwn_follows (h : TopLevelClasses S) (hc : OnePerClass S candidates) (hT : T ∈ S.nodes)
    (hclass : T.ClassLike) {name : String} (hname : classPath T.spelling = [name])
    (hown : ownOf name candidates = [c]) :
    Follows S T dispatch candidates (S.bindOwn dispatch candidates callerPath (ownOf name candidates)) := by
  have hmemc : c ∈ candidates ∧ Owner S T c := by
    rw [← mem_ownOf hT hclass hname, hown]
    exact List.mem_singleton_self c
  -- the method's own class is where the walk down begins
  have hseeds : S.seeds [c] = [T.id] := by
    have honly : S.only? name = some (S.classNode T) := by
      rw [ClassIndex.only?, single?_eq_some]
      exact h.byLast_eq hT hclass hname
    unfold ClassIndex.seeds
    rw [List.filterMap_cons, hmemc.2.path, hname, List.getLast?_singleton, Option.bind_some, honly]
    rfl
  let below := if dispatch then S.overrides candidates [c] else []
  have hbelow : ∀ c', c' ∈ below ↔ dispatch = true ∧ Overriding S T candidates c' ∧ c' ≠ c := by
    intro c'
    show c' ∈ (if dispatch then S.overrides candidates [c] else []) ↔ _
    cases dispatch with
    | false => simp
    | true =>
      unfold ClassIndex.overrides
      rw [hseeds, if_pos rfl, if_neg (List.cons_ne_nil _ _), List.mem_filter, decide_eq_true_eq, List.mem_singleton]
      constructor
      · rintro ⟨hmem, hne, hall⟩
        exact ⟨rfl, (overriding_iff h hc hmem).mp hall, hne⟩
      · rintro ⟨-, hover, hne⟩
        exact ⟨hover.1, hne, (overriding_iff h hc hover.1).mpr hover⟩
  have hanswer : S.bindOwn dispatch candidates callerPath (ownOf name candidates) = .bind (c :: below) := by
    unfold ClassIndex.bindOwn ownTargets
    rw [hown]
    cases dispatch with
    | false => rfl
    | true => rfl
  -- `T` has a method of its own, so nothing that it inherits is meant
  have hmeant : ∀ c', c' ∈ c :: below ↔ Meant S T dispatch candidates c' := by
    intro c'
    rw [List.mem_cons, hbelow]
    unfold Meant
    constructor
    · rintro (rfl | ⟨hd, hover, -⟩)
      · exact .inl hmemc
      · exact .inr (.inr ⟨hd, hover⟩)
    · rintro (hmem | ⟨hno, -⟩ | ⟨hd, hover⟩)
      · left
        rw [← mem_ownOf hT hclass hname, hown] at hmem
        exact List.mem_singleton.mp hmem
      · exact absurd hmemc.2 (hno c hmemc.1)
      · by_cases heq : c' = c
        · exact .inl heq
        · exact .inr ⟨hd, hover, heq⟩
  rw [hanswer]
  refine ⟨?_, hmeant, iff_of_false Bool.false_ne_true ?_, iff_of_false (fun hf => ?_) ?_, fun hd => ?_⟩
  · refine List.nodup_cons.mpr ⟨fun hmem => ((hbelow c).mp hmem).2.2 rfl, ?_⟩
    show (if dispatch then S.overrides candidates [c] else []).Nodup
    unfold ClassIndex.overrides
    split_ifs
    · exact List.nodup_nil
    · exact hc.nodup.filter _
    · exact List.nodup_nil
  · exact fun hamb => hamb.1 c hmemc.1 hmemc.2
  · cases hf
  · exact fun hnone => hnone c (.inl hmemc)
  · cases hd

theorem recvTypeTargets_follows (h : TopLevelClasses S) (hc : OnePerClass S candidates) (hT : T ∈ S.nodes)
    (hclass : T.ClassLike) (htype : classPath type = classPath T.spelling) (hstd : classPath type ≠ ["std"]) :
    Follows S T dispatch candidates (S.recvTypeTargets type dispatch candidates callerPath) := by
  obtain ⟨name, hname⟩ := h.name T hT hclass
  have hwant : classPath type = [name] := htype.trans hname
  have hhead : ¬some name = some "std" := by
    intro heq
    rw [hwant, Option.some.inj heq] at hstd
    exact hstd rfl
  have hby := h.byLast_eq hT hclass hname
  unfold ClassIndex.recvTypeTargets
  rw [hwant]
  show Follows S T dispatch candidates
    (if some name = some "std" then .drop
    else if S.ownMethods [name] name candidates = [] then
      if S.byLast name = [] then .drop
      else S.inheritedOrOverridden name (S.topLevel name) dispatch candidates callerPath
    else S.bindOwn dispatch candidates callerPath (S.ownMethods [name] name candidates))
  rw [if_neg hhead, ownMethods_eq h hc hT hclass hname]
  by_cases hnil : ownOf name candidates = []
  · rw [if_pos hnil, if_neg (by rw [hby]; exact List.cons_ne_nil _ _)]
    apply inheritedOrOverridden_follows h hc hT hclass hname
    intro c hmem howner
    have hown := (mem_ownOf hT hclass hname).mpr ⟨hmem, howner⟩
    rw [hnil] at hown
    cases hown
  · rw [if_neg hnil]
    obtain ⟨c, hown⟩ := ownOf_eq_singleton hc hnil
    exact bindOwn_follows h hc hT hclass hname hown

/-! ### The order of the candidates and the edges -/

/-- The same answer with the targets in some order. -/
structure SameAnswer (answer answer' : RecvTypeTargets) : Prop where
  targets : answer.targets.Perm answer'.targets
  ambiguous : answer.isAmbiguous = answer'.isAmbiguous
  fallback : answer = .fallback ↔ answer' = .fallback

theorem owner_congr (hnodes : S'.nodes = S.nodes) : Owner S' A c ↔ Owner S A c := by
  constructor
  · exact fun h => ⟨hnodes ▸ h.mem, h.classLike, h.path⟩
  · exact fun h => ⟨hnodes.symm ▸ h.mem, h.classLike, h.path⟩

/-- What a call should bind does not depend on the order of anything. -/
theorem meant_congr (hnodes : S'.nodes = S.nodes) (hup : Up S' = Up S) (hcand : candidates'.Perm candidates) :
    (NoOwn S' T candidates' ↔ NoOwn S T candidates) ∧
      (∀ c, Inherited S' T candidates' c ↔ Inherited S T candidates c) ∧
      ∀ c, Meant S' T dispatch candidates' c ↔ Meant S T dispatch candidates c := by
  have hown : NoOwn S' T candidates' ↔ NoOwn S T candidates := by
    unfold NoOwn
    simp only [owner_congr hnodes, hcand.mem_iff]
  have hat : ∀ k c, OwnedAt S' T k c ↔ OwnedAt S T k c := by
    intro k c
    unfold OwnedAt
    simp only [owner_congr hnodes, hup]
  have hinh : ∀ c, Inherited S' T candidates' c ↔ Inherited S T candidates c := by
    intro c
    unfold Inherited
    simp only [hat, hcand.mem_iff]
  refine ⟨hown, hinh, fun c => ?_⟩
  unfold Meant Overriding
  simp only [owner_congr hnodes, hcand.mem_iff, hown, hinh, hup]

theorem Follows.same {answer answer' : RecvTypeTargets} (h : Follows S T dispatch candidates answer)
    (h' : Follows S' T dispatch candidates' answer') (hnodes : S'.nodes = S.nodes) (hup : Up S' = Up S)
    (hcand : candidates'.Perm candidates) : SameAnswer answer' answer := by
  obtain ⟨hown, hinh, hmeant⟩ := @meant_congr S S' T candidates candidates' dispatch hnodes hup hcand
  refine ⟨?_, ?_, ?_⟩
  · refine (List.perm_ext_iff_of_nodup h'.nodup h.nodup).mpr fun c => ?_
    rw [h'.targets, h.targets, hmeant]
  · rw [Bool.eq_iff_iff, h'.ambiguous, h.ambiguous, hown]
    simp only [hinh]
  · rw [h'.fallback, h.fallback]
    simp only [hmeant]

/-- A call on a receiver of type `T` binds what the class hierarchy says, in whatever order the candidates and the
edges come. -/
theorem recvTypeTargets_hierarchy (h : TopLevelClasses S) (hc : OnePerClass S candidates) (hT : T ∈ S.nodes)
    (hclass : T.ClassLike) (htype : classPath type = classPath T.spelling) (hstd : classPath type ≠ ["std"]) :
    Follows S T dispatch candidates (S.recvTypeTargets type dispatch candidates callerPath) ∧
      ∀ (S' : ClassIndex) (candidates' : List TypedNode), S'.nodes = S.nodes → (∀ a b, Up S' a b ↔ Up S a b) →
        candidates'.Perm candidates →
        SameAnswer (S'.recvTypeTargets type dispatch candidates' callerPath)
          (S.recvTypeTargets type dispatch candidates callerPath) := by
  have hfollows := @recvTypeTargets_follows S T candidates type callerPath dispatch h hc hT hclass htype hstd
  refine ⟨hfollows, fun S' candidates' hnodes hup hcand => ?_⟩
  have h' : TopLevelClasses S' := by
    constructor
    · rw [hnodes]
      exact h.name
    · rw [hnodes]
      exact h.distinct
  have hc' : OnePerClass S' candidates' := by
    constructor
    · intro c hmem
      obtain ⟨A, hA⟩ := hc.owned c (hcand.mem_iff.mp hmem)
      exact ⟨A, (owner_congr hnodes).mpr hA⟩
    · exact (hcand.pairwise_iff fun hne => hne.symm).mpr hc.once
  have hT' : T ∈ S'.nodes := by
    rw [hnodes]
    exact hT
  have hrel : Up S' = Up S := funext fun a => funext fun b => propext (hup a b)
  exact hfollows.same (recvTypeTargets_follows h' hc' hT' hclass htype hstd) hnodes hrel hcand

/-- `B` and `T` inherit each other, and `B` has the method. -/
def inheritEachOther : ClassIndex where
  nodes := [⟨1, "b.py", "class", "B", none, none, 1, 3⟩, ⟨2, "t.py", "class", "T", none, none, 1, 3⟩,
    ⟨3, "b.py", "method", "f", some "B.f", none, 2, 2⟩]
  language := fun _ => none
  inherits := [(2, 1), (1, 2)]
  cppFields := []
  ids := by decide
  ends := by decide

/-- `B` is an ancestor of `T` and a subclass of it; its method is bound once. -/
theorem recvTypeTargets_cycle :
    Follows inheritEachOther ⟨2, "t.py", "class", "T", none, none, 1, 3⟩ true
      [⟨3, "b.py", "method", "f", some "B.f", none, 2, 2⟩]
      (inheritEachOther.recvTypeTargets "T" true [⟨3, "b.py", "method", "f", some "B.f", none, 2, 2⟩] "x.py") := by
  have htop : TopLevelClasses inheritEachOther := by
    constructor
    · intro n hn hclass
      simp only [inheritEachOther, List.mem_cons, List.not_mem_nil, or_false] at hn
      rcases hn with rfl | rfl | rfl
      · exact ⟨"B", by decide⟩
      · exact ⟨"T", by decide⟩
      · exact absurd hclass (by decide)
    · intro n hn hclass m hm hclass' heq
      simp only [inheritEachOther, List.mem_cons, List.not_mem_nil, or_false] at hn hm
      rcases hn with rfl | rfl | rfl <;> rcases hm with rfl | rfl | rfl <;> revert hclass hclass' heq <;> decide
  have hone : OnePerClass inheritEachOther [⟨3, "b.py", "method", "f", some "B.f", none, 2, 2⟩] := by
    constructor
    · intro c hc
      rw [List.mem_singleton] at hc
      subst hc
      exact ⟨⟨1, "b.py", "class", "B", none, none, 1, 3⟩, by decide, by decide, by decide⟩
    · exact List.pairwise_singleton _ _
  exact (recvTypeTargets_hierarchy htop hone (by decide) (by decide) (by decide) (by decide)).1

end CodeGraph.Pipeline.RecvType
