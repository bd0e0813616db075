import CodeGraph.Storage.PathUnder
import Mathlib

/-!
# `path_under_sql_params` against `path_is_under`

The pattern is the directory as it stands, a slash and a run, so the condition is a test of a prefix that takes ASCII
letters in either case (`pathUnderCondition_iff`). It says what `path_is_under` says but for the files under a directory
that differs from the one asked for in the case of its letters.
-/

namespace CodeGraph.Storage

open CodeGraph.Lib

/-! ### The pattern -/

/-- The backslash goes first, so the ones that the other two add are left alone. -/
theorem escapeLike_eq (s : List Char) : escapeLike s = escapeWith '\\' s := by
  induction s with
  | nil => rfl
  | cons c s ih =>
    have hstep : escapeLike (c :: s) = escapeLike [c] ++ escapeLike s := by
      simp only [escapeLike, replaceChar, List.flatMap_cons, List.flatMap_nil, List.append_nil, List.flatMap_append]
    have hescape : escapeWith '\\' (c :: s) = escapeWith '\\' [c] ++ escapeWith '\\' s := by
      simp only [escapeWith, List.flatMap_cons, List.flatMap_nil, List.append_nil]
    rw [hstep, ih, hescape]
    congr 1
    by_cases hback : c = '\\'
    · subst hback
      rfl
    by_cases hrun : c = '%'
    · subst hrun
      rfl
    by_cases hone : c = '_'
    · subst hone
      rfl
    simp [escapeLike, escapeWith, replaceChar, hback, hrun, hone]

variable {dir path : String}

theorem likeEscape_under_iff (w : List Char) :
    likeEscape '\\' (String.ofList (escapeLike w ++ ['/', '%'])) path = true ↔
      (w ++ ['/']).map Char.toLower <+: path.toList.map Char.toLower := by
  have htoks : likeToksEscape '\\' (escapeLike w ++ ['/', '%']) = some ((w ++ ['/']).map .lit ++ [.run]) := by
    rw [escapeLike_eq, likeToksEscape_escapeWith]
    have htail : likeToksEscape '\\' ['/', '%'] = some [.lit '/', .run] := by decide
    rw [htail, Option.map_some, List.map_append, List.append_assoc]
    rfl
  rw [likeEscape, String.toList_ofList, htoks]
  exact matchToks_prefix_iff

/-- A run in front and behind asks for a stretch of the text, in any case. -/
theorem likeEscape_infix_iff {w : List Char} {text : String} :
    likeEscape '\\' (String.ofList ('%' :: escapeLike w ++ ['%'])) text = true ↔
      w.map Char.toLower <:+: text.toList.map Char.toLower := by
  have htoks : likeToksEscape '\\' ('%' :: escapeLike w ++ ['%']) = some (.run :: (w.map .lit ++ [.run])) := by
    have htail : likeToksEscape '\\' ['%'] = some [.run] := by decide
    rw [List.cons_append, likeToksEscape_cons (by decide), escapeLike_eq, likeToksEscape_escapeWith, htail]
    rfl
  rw [likeEscape, String.toList_ofList, htoks]
  exact matchToks_infix_iff

/-- The condition holds of the directory itself and of what is below it in any case. -/
theorem pathUnderCondition_iff (hdir : trimEndSlashes dir.toList ≠ []) :
    pathUnderCondition (pathUnderSqlParams dir) path = true ↔
      path.toList = trimEndSlashes dir.toList ∨
        (trimEndSlashes dir.toList ++ ['/']).map Char.toLower <+: path.toList.map Char.toLower := by
  have hparams : pathUnderSqlParams dir =
      (String.ofList (trimEndSlashes dir.toList), String.ofList (escapeLike (trimEndSlashes dir.toList) ++ ['/', '%'])) := by
    rw [pathUnderSqlParams]
    exact if_neg (by simpa using hdir)
  rw [hparams, pathUnderCondition, Bool.or_eq_true, likeEscape_under_iff, beq_iff_eq, ← String.toList_inj,
    String.toList_ofList]

theorem pathIsUnder_iff :
    pathIsUnder path dir = true ↔
      path.toList = trimEndSlashes dir.toList ∨ trimEndSlashes dir.toList ++ ['/'] <+: path.toList := by
  rw [pathIsUnder, stripPrefix]
  by_cases hpre : trimEndSlashes dir.toList <+: path.toList
  · obtain ⟨rest, hrest⟩ := hpre
    rw [if_pos ⟨rest, hrest⟩, ← hrest, List.drop_left, List.prefix_append_right_inj]
    cases rest with
    | nil => simp
    | cons c rest => simp [eq_comm]
  · rw [if_neg hpre]
    refine iff_of_false (by simp) ?_
    rintro (heq | hunder)
    · exact hpre (heq ▸ List.prefix_rfl)
    · exact hpre ((List.prefix_append _ _).trans hunder)

/-! ### Letters in another case -/

/-- The path is below a directory that differs from the one asked for in the case of its letters. -/
def UnderOtherCase (path dir : String) : Prop :=
  ∃ other : List Char, other ≠ trimEndSlashes dir.toList ∧
    other.map Char.toLower = (trimEndSlashes dir.toList).map Char.toLower ∧ other ++ ['/'] <+: path.toList

theorem toLower_eq_slash {c : Char} (h : c.toLower = '/') : c = '/' := by
  rw [Char.toLower] at h
  split at h
  · next hupper =>
    exfalso
    have hval : (c.val + ('a'.val - 'A'.val)).toNat = 47 := congrArg (fun d : Char => d.val.toNat) h
    have hlow : 65 ≤ c.val.toNat := UInt32.le_iff_toNat_le.mp hupper.1
    have hhigh : c.val.toNat ≤ 90 := UInt32.le_iff_toNat_le.mp hupper.2
    have hstep : ('a'.val - 'A'.val).toNat = 32 := by decide
    rw [UInt32.toNat_add, hstep] at hval
    omega
  · exact h

/-- A path that is below the directory in any case is below one with the same letters. -/
theorem lower_prefix_iff {w s : List Char} :
    (w ++ ['/']).map Char.toLower <+: s.map Char.toLower ↔
      ∃ other : List Char, other.map Char.toLower = w.map Char.toLower ∧ other ++ ['/'] <+: s := by
  rw [List.map_append]
  constructor
  · rintro ⟨t, ht⟩
    obtain ⟨front, rest, rfl, hfront, -⟩ := List.append_eq_map_iff.mp ht
    obtain ⟨other, slash, rfl, hother, hslash⟩ := List.append_eq_map_iff.mp hfront.symm
    obtain ⟨c, rfl, hc⟩ := List.map_eq_singleton_iff.mp hslash
    obtain rfl := toLower_eq_slash (hc.trans (by decide))
    exact ⟨other, hother, List.prefix_append _ _⟩
  · rintro ⟨other, hother, hunder⟩
    rw [← hother, ← List.map_append]
    exact hunder.map Char.toLower

theorem not_under_of_underOtherCase (h : UnderOtherCase path dir) : pathIsUnder path dir ≠ true := by
  obtain ⟨other, hne, hfold, hunder⟩ := h
  have hlength : other.length = (trimEndSlashes dir.toList).length := by
    simpa using congrArg List.length hfold
  rw [ne_eq, pathIsUnder_iff]
  rintro (heq | hself)
  · have hle := hunder.length_le
    rw [heq, List.length_append, List.length_singleton] at hle
    omega
  · -- Two fronts of one length are the same.
    have hsame := (List.prefix_of_prefix_length_le hunder hself (by simp [hlength])).eq_of_length (by simp [hlength])
    exact hne (List.append_cancel_right hsame)

/-- The condition and `path_is_under` agree on a path exactly when it is not below a directory that differs from the one
asked for in the case of its letters. -/
theorem pathUnderCondition_eq_iff (dir path : String) (hdir : trimEndSlashes dir.toList ≠ []) :
    pathUnderCondition (pathUnderSqlParams dir) path = pathIsUnder path dir ↔ ¬UnderOtherCase path dir := by
  constructor
  · intro heq hother
    have hcondition : pathUnderCondition (pathUnderSqlParams dir) path = true := by
      rw [pathUnderCondition_iff hdir, lower_prefix_iff]
      obtain ⟨other, -, hfold, hunder⟩ := hother
      exact .inr ⟨other, hfold, hunder⟩
    exact not_under_of_underOtherCase hother (heq.symm.trans hcondition)
  · intro hother
    rw [Bool.eq_iff_iff, pathUnderCondition_iff hdir, pathIsUnder_iff, lower_prefix_iff]
    refine or_congr_right ⟨?_, fun hunder => ⟨_, rfl, hunder⟩⟩
    rintro ⟨other, hfold, hunder⟩
    by_cases hsame : other = trimEndSlashes dir.toList
    · exact hsame ▸ hunder
    · exact absurd ⟨other, hsame, hfold, hunder⟩ hother

theorem pathUnderCondition_eq_src :
    pathUnderCondition (pathUnderSqlParams "src") "src/a.rs" = pathIsUnder "src/a.rs" "src" ↔
      ¬UnderOtherCase "src/a.rs" "src" :=
  pathUnderCondition_eq_iff "src" "src/a.rs" (by decide)

/-- `src` takes in the files of `SRC`. -/
theorem pathUnderCondition_other_case :
    pathUnderCondition (pathUnderSqlParams "src") "SRC/a.rs" = true ∧ pathIsUnder "SRC/a.rs" "src" = false := by
  decide

end CodeGraph.Storage
