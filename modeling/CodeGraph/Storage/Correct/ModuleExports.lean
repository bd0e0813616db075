import CodeGraph.Domain.Correct.TestFilter
import CodeGraph.Lib.Texts
import CodeGraph.Storage.ModuleExports

/-!
# The two halves of a module overview

What is shown is, for each key, the visible row with the most callers, if that one is no test
(`mem_shownKeys`). What is withheld is counted by key too, but a key is withheld as soon as one of its nodes is. So the
halves are a partition of the candidates when the queries treat the nodes of a key alike (`Uniform`): no key then falls
on both sides, and none on neither because the row that stands for it is a test while another is not.
-/

namespace CodeGraph.Storage.ModuleExports

open CodeGraph.Lib CodeGraph.Storage CodeGraph.Domain

/-! ### The best row of a key -/

/-- The row that stands for a key, when the rows come by their callers. -/
def topOf (rows : List ModuleExport) (k : String × String) : Option ModuleExport := rows.find? fun e => e.key = k

/-- The order that the query asks for. -/
def ByCallers (rows : List ModuleExport) : Prop := rows.Pairwise fun a b => b.callerCount ≤ a.callerCount

variable {rows : List ModuleExport} {k : String × String} {e : ModuleExport}

theorem topOf_key (h : topOf rows k = some e) : e.key = k := by
  have hkey := List.find?_some h
  exact of_decide_eq_true hkey

theorem topOf_mem (h : topOf rows k = some e) : e ∈ rows := List.mem_of_find?_eq_some h

/-- The first row of a key stays, as no later one has more callers. -/
theorem lookup_foldl_keepBest (hrows : ByCallers rows) : ∀ {best : AList fun _ : String × String => ModuleExport},
    (∀ k e, best.lookup k = some e → ∀ r ∈ rows, r.callerCount ≤ e.callerCount) →
    ∀ k, (rows.foldl keepBest best).lookup k = (best.lookup k).or (topOf rows k) := by
  -- the rows come with the most called first, so the first row of a key stays
  induction rows with
  | nil =>
    intro best _ k
    exact (Option.or_none (o := best.lookup k)).symm
  | cons r rows ih =>
    intro best hbest k
    rw [ByCallers, List.pairwise_cons] at hrows
    have hcons : topOf (r :: rows) k = if r.key = k then some r else topOf rows k := by
      rw [topOf, List.find?_cons]
      by_cases hk : r.key = k <;> simp [hk, topOf]
    rw [List.foldl_cons, hcons, keepBest]
    cases hlookup : best.lookup r.key with
    | some existing =>
      have hle := hbest r.key existing hlookup r List.mem_cons_self
      dsimp only
      rw [if_neg (by omega), ih hrows.2 fun k e hk r' hr' => hbest k e hk r' (List.mem_cons_of_mem r hr')]
      split_ifs with hk
      · subst hk
        rw [hlookup, Option.some_or, Option.some_or]
      · rfl
    | none =>
      dsimp only
      have hinsert : ∀ k e, (best.insert r.key r).lookup k = some e → ∀ r' ∈ rows, r'.callerCount ≤ e.callerCount := by
        intro k e hk r' hr'
        by_cases heq : k = r.key
        · subst heq
          rw [AList.lookup_insert] at hk
          obtain rfl := Option.some.inj hk
          exact hrows.1 r' hr'
        · rw [AList.lookup_insert_ne heq] at hk
          exact hbest k e hk r' (List.mem_cons_of_mem r hr')
      rw [ih hrows.2 hinsert]
      split_ifs with hk
      · subst hk
        rw [AList.lookup_insert, hlookup, Option.some_or, Option.none_or]
      · rw [AList.lookup_insert_ne (Ne.symm hk)]

theorem mem_getModuleExports (hrows : ByCallers rows) : e ∈ getModuleExports rows ↔ topOf rows e.key = some e := by
  have hlookup : ∀ k, (rows.foldl keepBest ∅).lookup k = topOf rows k := by
    intro k
    rw [lookup_foldl_keepBest hrows (fun k e hk => absurd hk (by simp))]
    simp
  rw [getModuleExports, mem_sortByKey, List.mem_map]
  constructor
  · rintro ⟨⟨k, e⟩, hmem, rfl⟩
    have hk := AList.mem_lookup_iff.mpr hmem
    rw [hlookup] at hk
    rw [topOf_key hk]
    exact hk
  · intro htop
    exact ⟨⟨e.key, e⟩, AList.mem_lookup_iff.mp ((hlookup e.key).trans htop), rfl⟩

theorem getModuleExports_keys_nodup (hrows : ByCallers rows) : ((getModuleExports rows).map ModuleExport.key).Nodup := by
  have hperm := sortByKey_perm
    (fun e : ModuleExport =>
      toLex (OrderDual.toDual e.callerCount, toLex (e.filePath, toLex (e.startLine, e.qualifiedName))))
    ((rows.foldl keepBest ∅).entries.map Sigma.snd)
  refine (hperm.map ModuleExport.key).nodup_iff.mpr ?_
  have hkeys : ((rows.foldl keepBest ∅).entries.map Sigma.snd).map ModuleExport.key = (rows.foldl keepBest ∅).keys := by
    rw [List.map_map]
    apply List.map_congr_left
    rintro ⟨k, e⟩ hmem
    have hk := AList.mem_lookup_iff.mpr hmem
    rw [lookup_foldl_keepBest hrows (fun k e hk => absurd hk (by simp))] at hk
    exact topOf_key (by simpa using hk)
  rw [hkeys]
  exact AList.keys_nodup _

/-! ### The halves -/

def shownKeys (rows : List ModuleExport) : List (String × String) := (overview rows).map ModuleExport.key

theorem mem_shownKeys (hrows : ByCallers rows) :
    k ∈ shownKeys rows ↔ ∃ e, topOf rows k = some e ∧ isTestSymbol e.name e.filePath = false := by
  simp only [shownKeys, overview, List.mem_map, List.mem_filter, mem_getModuleExports hrows, Bool.not_eq_true']
  constructor
  · rintro ⟨e, ⟨htop, htest⟩, rfl⟩
    exact ⟨e, htop, htest⟩
  · rintro ⟨e, htop, htest⟩
    obtain rfl := topOf_key htop
    exact ⟨e, ⟨htop, htest⟩, rfl⟩

theorem shownKeys_nodup (hrows : ByCallers rows) : (shownKeys rows).Nodup :=
  (getModuleExports_keys_nodup hrows).sublist (List.filter_sublist.map _)

variable {db : Db} {dir : String}

/-- A node that belongs in one of the halves. -/
def Db.candidate (db : Db) (dir : String) (n : NodeRow) : Prop :=
  db.listed dir n ∧ isTestNode (db.isTest n.id) n.name (db.row n).path = false

instance (n : NodeRow) : Decidable (db.candidate dir n) := inferInstanceAs (Decidable (_ ∧ _))

def Db.candidateKeys (db : Db) (dir : String) : List (String × String) :=
  (db.nodes.filter fun n => db.candidate dir n).map db.key

theorem mem_candidateKeys : k ∈ db.candidateKeys dir ↔ ∃ n ∈ db.nodes, db.candidate dir n ∧ db.key n = k := by
  simp only [Db.candidateKeys, List.mem_map, List.mem_filter, decide_eq_true_eq, and_assoc]

theorem mem_withheldKeys : k ∈ db.withheldKeys dir ↔
    ∃ n ∈ db.nodes, db.candidate dir n ∧ ¬db.exportVisible n ∧ db.key n = k := by
  simp only [Db.withheldKeys, List.mem_map, List.mem_filter, decide_eq_true_eq, eval_isTestNodeSql, Db.candidate,
    Db.row, and_assoc]

theorem mem_selectExports : e ∈ db.selectExports dir ↔
    ∃ n ∈ db.nodes, db.listed dir n ∧ db.isTest n.id = false ∧ db.exportVisible n ∧ db.moduleExport n = e := by
  simp only [Db.selectExports, List.mem_map, List.mem_filter, decide_eq_true_eq, and_assoc]

theorem moduleExport_key (n : NodeRow) : (db.moduleExport n).key = db.key n := rfl

/-- What is shown and what is withheld are the candidates, each once. -/
structure Partitions (db : Db) (dir : String) (rows : List ModuleExport) : Prop where
  disjoint : ∀ k ∈ shownKeys rows, k ∉ db.withheldKeys dir
  covers : ∀ k, k ∈ shownKeys rows ∨ k ∈ db.withheldKeys dir ↔ k ∈ db.candidateKeys dir
  count : (overview rows).length + db.countExportFilteredOut dir = (db.candidateKeys dir).toFinset.card

/-- The row of the node is one of those that `get_module_exports` selects. -/
def Db.selected (db : Db) (dir : String) (n : NodeRow) : Prop :=
  db.listed dir n ∧ db.isTest n.id = false ∧ db.exportVisible n

instance (n : NodeRow) : Decidable (db.selected dir n) := inferInstanceAs (Decidable (_ ∧ _))

/-- The candidates of a key are all exported or all not, none of the rows that may stand for a visible one is a test by
its name, and no name of a withheld one holds the separator of `joinKey`. -/
structure Uniform (db : Db) (dir : String) : Prop where
  oneSide : ∀ n ∈ db.nodes, ∀ n' ∈ db.nodes, db.candidate dir n → db.candidate dir n' → db.key n = db.key n' →
    (db.exportVisible n ↔ db.exportVisible n')
  agree : ∀ n ∈ db.nodes, ∀ n' ∈ db.nodes, db.candidate dir n → db.exportVisible n → db.selected dir n' →
    db.key n' = db.key n → isTestSymbol n'.name (db.row n').path = false
  plain : ∀ n ∈ db.nodes, db.candidate dir n → ¬db.exportVisible n → '\x1f' ∉ (db.key n).1.toList

theorem shown_candidate (hperm : rows.Perm (db.selectExports dir)) (hrows : ByCallers rows) (h : k ∈ shownKeys rows) :
    k ∈ db.candidateKeys dir := by
  obtain ⟨e, htop, htest⟩ := (mem_shownKeys hrows).mp h
  obtain ⟨n, hn, hlisted, hflag, -, rfl⟩ := mem_selectExports.mp (hperm.mem_iff.mp (topOf_mem htop))
  refine mem_candidateKeys.mpr ⟨n, hn, ⟨hlisted, ?_⟩, topOf_key htop⟩
  rw [isTestNode, hflag, Bool.false_or]
  exact htest

/-- A visible candidate whose key has no test among its rows is shown. -/
theorem shown_of_visible (hperm : rows.Perm (db.selectExports dir)) (hrows : ByCallers rows) {n : NodeRow}
    (hn : n ∈ db.nodes) (hcandidate : db.candidate dir n) (hvisible : db.exportVisible n)
    (hagree : ∀ n' ∈ db.nodes, db.selected dir n' → db.key n' = db.key n →
      isTestSymbol n'.name (db.row n').path = false) : db.key n ∈ shownKeys rows := by
  have hflag : db.isTest n.id = false := (Bool.or_eq_false_iff.mp hcandidate.2).1
  have hmem := hperm.mem_iff.mpr (mem_selectExports.mpr ⟨n, hn, hcandidate.1, hflag, hvisible, rfl⟩)
  refine (mem_shownKeys hrows).mpr ?_
  cases htop : topOf rows (db.key n) with
  | none =>
    have hnone := List.find?_eq_none.mp htop _ hmem
    simp [moduleExport_key] at hnone
  | some e =>
    obtain ⟨n', hn', hlisted, hflag', hvisible', rfl⟩ := mem_selectExports.mp (hperm.mem_iff.mp (topOf_mem htop))
    exact ⟨_, rfl, hagree n' hn' ⟨hlisted, hflag', hvisible'⟩ (topOf_key htop)⟩

/-- The separator keeps two keys apart whose names do not hold it. -/
theorem joinKey_inj {k k' : String × String} (hk : '\x1f' ∉ k.1.toList) (hk' : '\x1f' ∉ k'.1.toList)
    (h : joinKey k = joinKey k') : k = k' := by
  have hlist : k.1.toList ++ '\x1f' :: k.2.toList = k'.1.toList ++ '\x1f' :: k'.2.toList := by
    have htext := congrArg String.toList h
    simpa [joinKey] using htext
  obtain ⟨hname, hpath⟩ := append_separator_inj hk hk' hlist
  exact Prod.ext (String.toList_inj.mp hname) (String.toList_inj.mp hpath)

theorem Uniform.count_eq (h : Uniform db dir) :
    db.countExportFilteredOut dir = (db.withheldKeys dir).toFinset.card := by
  have himage : ((db.withheldKeys dir).map joinKey).toFinset = (db.withheldKeys dir).toFinset.image joinKey := by
    ext s
    simp
  have hplain : ∀ k ∈ db.withheldKeys dir, '\x1f' ∉ k.1.toList := by
    intro k hk
    obtain ⟨n, hn, hcandidate, hhidden, rfl⟩ := mem_withheldKeys.mp hk
    exact h.plain n hn hcandidate hhidden
  rw [Db.countExportFilteredOut, himage, Finset.card_image_iff]
  intro k hk k' hk' heq
  exact joinKey_inj (hplain k (by simpa using hk)) (hplain k' (by simpa using hk')) heq

theorem overview_length (hrows : ByCallers rows) : (overview rows).length = (shownKeys rows).toFinset.card := by
  rw [List.toFinset_card_of_nodup (shownKeys_nodup hrows), shownKeys, List.length_map]

/-- **Shown and withheld symbols are a partition of the candidates** when the queries treat the nodes of a key alike. -/
theorem overview_partitions (hperm : rows.Perm (db.selectExports dir)) (hrows : ByCallers rows)
    (h : Uniform db dir) : Partitions db dir rows := by
  -- the nodes of a key are on one side, so it is not both shown and withheld
  have hdisjoint : ∀ k ∈ shownKeys rows, k ∉ db.withheldKeys dir := by
    intro k hshown hwithheld
    obtain ⟨e, htop, htest⟩ := (mem_shownKeys hrows).mp hshown
    obtain ⟨n, hn, hlisted, hflag, hvisible, rfl⟩ := mem_selectExports.mp (hperm.mem_iff.mp (topOf_mem htop))
    have hcandidate : db.candidate dir n := by
      refine ⟨hlisted, ?_⟩
      rw [isTestNode, hflag, Bool.false_or]
      exact htest
    obtain ⟨n', hn', hcandidate', hhidden, hkey⟩ := mem_withheldKeys.mp hwithheld
    exact hhidden ((h.oneSide n hn n' hn' hcandidate hcandidate' ((topOf_key htop).trans hkey.symm)).mp hvisible)
  -- a candidate with a visible node is shown, and any other is withheld
  have hcovers : ∀ k, k ∈ shownKeys rows ∨ k ∈ db.withheldKeys dir ↔ k ∈ db.candidateKeys dir := by
    intro k
    constructor
    · rintro (hshown | hwithheld)
      · exact shown_candidate hperm hrows hshown
      · obtain ⟨n, hn, hcandidate, -, hkey⟩ := mem_withheldKeys.mp hwithheld
        exact mem_candidateKeys.mpr ⟨n, hn, hcandidate, hkey⟩
    · intro hk
      obtain ⟨n, hn, hcandidate, rfl⟩ := mem_candidateKeys.mp hk
      by_cases hvisible : db.exportVisible n
      · exact .inl (shown_of_visible hperm hrows hn hcandidate hvisible
          fun n' hn' => h.agree n hn n' hn' hcandidate hvisible)
      · exact .inr (mem_withheldKeys.mpr ⟨n, hn, hcandidate, hvisible, rfl⟩)
  refine ⟨hdisjoint, hcovers, ?_⟩
  rw [h.count_eq, overview_length hrows, ← Finset.card_union_of_disjoint]
  · congr 1
    ext k
    rw [Finset.mem_union, List.mem_toFinset, List.mem_toFinset, List.mem_toFinset, hcovers]
  · rw [Finset.disjoint_left]
    intro k hk
    rw [List.mem_toFinset] at hk ⊢
    exact hdisjoint k hk

/-- A key with candidates on both sides breaks the partition, when none of its rows is a test by its name. -/
theorem Partitions.oneSide (hperm : rows.Perm (db.selectExports dir)) (hrows : ByCallers rows)
    (h : Partitions db dir rows) {n n' : NodeRow} (hn : n ∈ db.nodes) (hn' : n' ∈ db.nodes)
    (hcandidate : db.candidate dir n) (hcandidate' : db.candidate dir n') (hkey : db.key n = db.key n')
    (hagree : ∀ m ∈ db.nodes, db.selected dir m → db.key m = db.key n → isTestSymbol m.name (db.row m).path = false)
    (hvisible : db.exportVisible n) : db.exportVisible n' := by
  by_contra hhidden
  have hshown := shown_of_visible hperm hrows hn hcandidate hvisible hagree
  exact h.disjoint _ hshown (mem_withheldKeys.mpr ⟨n', hn', hcandidate', hhidden, hkey.symm⟩)

section Samples

/-- A file that exports one of its two functions. -/
def oneExported : Db where
  files := [⟨1, "a.ts", none⟩]
  nodes := [⟨1, 1, "function", "f", ""⟩, ⟨2, 1, "function", "g", ""⟩, ⟨3, 1, "module", "<module>", ""⟩]
  edges := {.new 3 1 .exports none}
  file_ids := by decide
  file_paths := by decide
  node_ids := by decide
  node_file := by decide
  edge_source := by decide
  edge_target := by decide
  edge_key := by decide
  qualifiedName := fun _ => none
  isTest := fun _ => false
  signature := fun _ => none
  startLine := fun id => id
  endLine := fun id => id

theorem oneExported_select :
    oneExported.selectExports "" = [⟨1, "f", "function", none, "a.ts", 0, 1, 1, "f"⟩] := by
  decide

theorem uniform_oneExported : Uniform oneExported "" := by
  constructor <;> decide

/-- `f` is shown and `g` is withheld. -/
theorem overview_partitions_sample : Partitions oneExported "" (oneExported.selectExports "") := by
  refine overview_partitions (List.Perm.refl _) ?_ uniform_oneExported
  rw [oneExported_select]
  exact List.pairwise_singleton _ _

/-- Two functions `f` in one file, as overloads are, one of them exported. -/
def oneOverload : Db where
  files := [⟨1, "a.ts", none⟩]
  nodes := [⟨1, 1, "function", "f", ""⟩, ⟨2, 1, "function", "f", ""⟩, ⟨3, 1, "module", "<module>", ""⟩]
  edges := {.new 3 1 .exports none}
  file_ids := by decide
  file_paths := by decide
  node_ids := by decide
  node_file := by decide
  edge_source := by decide
  edge_target := by decide
  edge_key := by decide
  qualifiedName := fun _ => none
  isTest := fun _ => false
  signature := fun _ => none
  startLine := fun id => id
  endLine := fun id => id

/-- `f` is shown and is counted as withheld. -/
theorem overview_not_partition : ¬Partitions oneOverload "" (oneOverload.selectExports "") := by
  intro h
  exact h.disjoint ("f", "a.ts") (by decide) (by decide)

end Samples

end CodeGraph.Storage.ModuleExports
