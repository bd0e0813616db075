import CodeGraph.Domain.TestFilter

/-!
# The SQL conditions mirror the Rust predicates

Each leg of a condition is one shape of pattern, and a shape is one `str` method: `eval_testPathLegsSql`
puts them together for paths, and the conditions on nodes follow (`test_conditions_agree`).
-/

namespace CodeGraph.Domain

open CodeGraph.Lib

/-! ### Shapes of patterns -/

section Shapes

variable {pat w v text : String}

theorem glob_prefix_eq (h : pat.toList.map globTok = w.toList.map .lit ++ [.run]) :
    glob pat text = startsWith text w := by
  have hmatch := @matchToks_prefix_iff text.toList w.toList id
  simp only [id, List.map_id] at hmatch
  rw [glob, h, Bool.eq_iff_iff, startsWith, decide_eq_true_iff]
  exact hmatch

theorem glob_suffix_eq (h : pat.toList.map globTok = .run :: w.toList.map .lit) :
    glob pat text = endsWith text w := by
  have hmatch := @matchToks_suffix_iff text.toList w.toList id
  simp only [id, List.map_id] at hmatch
  rw [glob, h, Bool.eq_iff_iff, endsWith, decide_eq_true_iff]
  exact hmatch

theorem glob_infix_eq (h : pat.toList.map globTok = .run :: (w.toList.map .lit ++ [.run])) :
    glob pat text = contains text w := by
  have hmatch := @matchToks_infix_iff text.toList w.toList id
  simp only [id, List.map_id] at hmatch
  rw [glob, h, Bool.eq_iff_iff, contains, decide_eq_true_iff]
  exact hmatch

/-- A pattern with a prefix and a suffix: the suffix starts with a character the prefix lacks. -/
theorem glob_ends_eq {c : Char} {cs : List Char} (hv : v.toList = c :: cs) (hc : c ∉ w.toList)
    (h : pat.toList.map globTok = w.toList.map .lit ++ .run :: v.toList.map .lit) :
    glob pat text = (endsWith text v && startsWith text w) := by
  rw [glob, h, Bool.eq_iff_iff, hv, matchToks_ends_iff hc, startsWith, endsWith, hv]
  simp [and_comm]

theorem glob_mid_end_eq {c : Char} {cs : List Char} (hv : v.toList = c :: cs) (hc : c ∉ w.toList)
    (hlen : (c :: cs).length ≤ w.toList.length)
    (h : pat.toList.map globTok = .run :: (w.toList.map .lit ++ .run :: v.toList.map .lit)) :
    glob pat text = (endsWith text v && contains text w) := by
  rw [glob, h, Bool.eq_iff_iff, hv, matchToks_mid_end_iff hc hlen, contains, endsWith, hv]
  simp [and_comm]

theorem like_prefix_eq (h : pat.toList.map likeTok = w.toList.map .lit ++ [.run])
    (hlower : w.toList.map Char.toLower = w.toList) :
    like pat text = startsWith (toAsciiLowercase text) w := by
  rw [like, h, Bool.eq_iff_iff, matchToks_prefix_iff, hlower, startsWith, toAsciiLowercase]
  simp

theorem like_infix_eq (h : pat.toList.map likeTok = .run :: (w.toList.map .lit ++ [.run]))
    (hlower : w.toList.map Char.toLower = w.toList) :
    like pat text = contains (toAsciiLowercase text) w := by
  rw [like, h, Bool.eq_iff_iff, matchToks_infix_iff, hlower, contains, toAsciiLowercase]
  simp

end Shapes

theorem eval_orAll (row : JoinedRow) (legs : List Sql) (last : Sql) :
    (Sql.orAll legs last).eval row = (legs.any (Sql.eval row) || last.eval row) := by
  induction legs with
  | nil => rfl
  | cons leg legs ih =>
    show (leg.eval row || (Sql.orAll legs last).eval row) = _
    rw [ih, List.any_cons, Bool.or_assoc]

/-! ### Paths -/

/-- The legs generated from a stem and its extensions. -/
theorem any_eval_suffix (row : JoinedRow) (stem : String) (exts : List String)
    (h : ∀ ext ∈ exts,
      ("*" ++ (stem ++ ext)).toList.map globTok = .run :: (stem ++ ext).toList.map .lit) :
    (exts.map fun ext => Sql.glob .path ("*" ++ (stem ++ ext))).any (Sql.eval row) =
      exts.any fun ext => endsWith row.path (stem ++ ext) := by
  induction exts with
  | nil => rfl
  | cons ext exts ih =>
    have hext : Lib.glob ("*" ++ (stem ++ ext)) row.path = endsWith row.path (stem ++ ext) :=
      glob_suffix_eq (h ext List.mem_cons_self)
    rw [List.map_cons, List.any_cons, List.any_cons,
      ih fun x hx => h x (List.mem_cons_of_mem ext hx)]
    show (Lib.glob ("*" ++ (stem ++ ext)) row.path || _) = _
    rw [hext]

theorem any_eval_pascal (row : JoinedRow) :
    (pascalTestStemExts.flatMap fun (stem, exts) =>
        exts.map fun ext => Sql.glob .path ("*" ++ (stem ++ "." ++ ext))).any (Sql.eval row) =
      pascalTestStemExts.any fun (stem, exts) =>
        exts.any fun ext => endsWith row.path (stem ++ "." ++ ext) := by
  rw [List.any_flatMap]
  simp only [pascalTestStemExts, List.any_cons, List.any_nil]
  rw [any_eval_suffix row ("Test" ++ ".") _ (by decide),
    any_eval_suffix row ("Tests" ++ ".") _ (by decide),
    any_eval_suffix row ("Spec" ++ ".") _ (by decide)]

/-- `*conftest.py` is a leg of its own in SQL; in Rust it stands under the test for `.py`. -/
theorem pytest_legs (path : String) :
    (endsWith path ".py" &&
      (startsWith path "test_" || contains path "/test_" || endsWith path "conftest.py")) =
    (endsWith path ".py" && startsWith path "test_" ||
      (endsWith path ".py" && contains path "/test_" || endsWith path "conftest.py")) := by
  have hconf : endsWith path "conftest.py" = true → endsWith path ".py" = true := by
    rw [endsWith, endsWith, decide_eq_true_iff, decide_eq_true_iff]
    exact (by decide : ".py".toList <:+ "conftest.py".toList).trans
  cases hc : endsWith path "conftest.py" with
  | true => simp [hconf hc]
  | false => simp [Bool.and_or_distrib_left]

/-- **The legs of a path are true exactly on test files.** -/
theorem eval_testPathLegsSql (row : JoinedRow) : testPathLegsSql.eval row = isTestPath row.path := by
  rw [testPathLegsSql, eval_orAll, List.any_append, List.any_append, any_eval_pascal,
    any_eval_suffix row "_test." _ (by decide)]
  simp only [List.any_cons, List.any_nil, Sql.eval, JoinedRow.get]
  rw [like_prefix_eq (w := "tests/") (by decide) (by decide),
    like_prefix_eq (w := "test/") (by decide) (by decide),
    like_infix_eq (w := "/tests/") (by decide) (by decide),
    like_infix_eq (w := "/test/") (by decide) (by decide),
    glob_ends_eq (v := ".py") (w := "test_") rfl (by decide) (by decide),
    glob_mid_end_eq (v := ".py") (w := "/test_") rfl (by decide) (by decide) (by decide),
    glob_suffix_eq (w := "conftest.py") (by decide),
    glob_prefix_eq (w := "benches/") (by decide),
    glob_prefix_eq (w := "bench/") (by decide),
    glob_infix_eq (w := "__tests__/") (by decide),
    glob_suffix_eq (w := "/tests.rs") (by decide),
    glob_suffix_eq (w := ".test.ts") (by decide),
    glob_suffix_eq (w := ".test.js") (by decide),
    glob_suffix_eq (w := ".test.tsx") (by decide),
    glob_suffix_eq (w := ".test.jsx") (by decide),
    glob_suffix_eq (w := ".spec.ts") (by decide),
    glob_suffix_eq (w := ".spec.js") (by decide),
    glob_suffix_eq (w := ".spec.tsx") (by decide),
    glob_suffix_eq (w := ".spec.jsx") (by decide)]
  -- The legs are the same; SQL has the directories after the generated ones.
  simp only [isTestPath, Bool.if_true_left, Bool.decide_eq_true, pytest_legs, Bool.or_false]
  ac_rfl

/-! ### Nodes -/

theorem eval_glob_test_name (row : JoinedRow) :
    (Sql.glob .name "test_*").eval row = startsWith row.name "test_" := by
  show Lib.glob "test_*" row.name = _
  exact glob_prefix_eq (by decide)

theorem eval_isTestNodeSql (row : JoinedRow) : isTestNodeSql.eval row = isTestNode row.isTest row.name row.path := by
  have hTest : Lib.glob "*Test" row.name = endsWith row.name "Test" := glob_suffix_eq (by decide)
  have hTests : Lib.glob "*Tests" row.name = endsWith row.name "Tests" := glob_suffix_eq (by decide)
  rw [isTestNodeSql, eval_orAll, eval_testPathLegsSql row, List.any_cons, List.any_cons, eval_glob_test_name]
  simp [Sql.eval, JoinedRow.get, hTest, hTests, isTestNode, isTestSymbol, Bool.or_assoc]

/-- **The conditions and the predicates agree**, on every node and path: the node condition is the
predicate, the two source filters are each other's negation, and what both say about the path is what
`isTestPath` says. The source filters leave out the suffixes `Test` and `Tests` of a name. -/
theorem test_conditions_agree (flag : Bool) (name path : String) :
    let row : JoinedRow := ⟨flag, name, path⟩
    isTestNodeSql.eval row = isTestNode flag name path ∧
    (prodFilterAnd.eval row = false ↔ testSourceFilterOr.eval row = true) ∧
    testPathLegsSql.eval row = isTestPath path ∧
    testSourceFilterOr.eval row = (flag || startsWith name "test_" || isTestPath path) ∧
    prodFilterAnd.eval row = (!flag && !startsWith name "test_" && !isTestPath path) := by
  intro row
  have hpath : testPathLegsSql.eval row = isTestPath path := eval_testPathLegsSql row
  have hname : (Sql.glob .name "test_*").eval row = startsWith name "test_" :=
    eval_glob_test_name row
  have htest : testSourceFilterOr.eval row = (flag || startsWith name "test_" || isTestPath path) := by
    rw [testSourceFilterOr, eval_orAll, hpath, List.any_cons, List.any_cons, hname]
    simp [Sql.eval, row]
  have hprod : prodFilterAnd.eval row =
      (!flag && !startsWith name "test_" && !isTestPath path) := by
    rw [prodFilterAnd]
    simp only [Sql.eval, hpath]
    show ((flag == false) && !(Sql.glob .name "test_*").eval row && _) = _
    rw [hname]
    simp
  refine ⟨?_, ?_, hpath, htest, hprod⟩
  · exact eval_isTestNodeSql row
  · rw [hprod, htest]
    cases flag <;> cases startsWith name "test_" <;> cases isTestPath path <;> simp

end CodeGraph.Domain
