import CodeGraph.Plugin.Correct.Markers

/-!
# What one pass of `stripSentinelBlock` takes out

`stripFrom_run` is the rule for a pass: what holds of the text written and the text ahead, is kept where nothing is
matched, and is kept where lines are cut out (`CutAt`), holds of the text in the end. Healing a seam is cutting out some
of the newlines on both sides together with the lines (`exists_cutAt_of_heal`).
-/

namespace CodeGraph.Plugin.Adopt

open CodeGraph.Lib

variable {β : Type*} {re : LinePattern} {out text m rest : List Char} {c : Char} {atStart : Bool}

/-! ### Steps of the loop -/

@[simp] theorem stripFrom_nil : stripFrom re out atStart [] = out := by
  rw [stripFrom]
  split
  case h_1 => rw [List.append_nil]
  case h_2 h => cases h

theorem exec_skip (h : atStart = true → re.run (c :: text) = none) :
    re.exec atStart (c :: text) = (re.exec (lineTerminator c) text).map fun (pre, m) => (c :: pre, m) := by
  have hnone : (if atStart then re.run (c :: text) else none) = none := by
    split
    case isTrue hstart => exact h hstart
    case isFalse => rfl
  rw [LinePattern.exec, hnone]

theorem stripFrom_skip (h : atStart = true → re.run (c :: text) = none) :
    stripFrom re out atStart (c :: text) = stripFrom re (out ++ [c]) (lineTerminator c) text := by
  have hexec := exec_skip h
  rw [stripFrom, stripFrom]
  cases hrest : re.exec (lineTerminator c) text with
  | none =>
    rw [hrest] at hexec
    split
    case h_1 => simp
    case h_2 h' =>
      rw [hexec] at h'
      cases h'
  | some r =>
    obtain ⟨pre, m, rest⟩ := r
    rw [hrest] at hexec
    split
    case h_1 h' =>
      rw [hexec] at h'
      cases h'
    case h_2 h' =>
      rw [hexec] at h'
      cases h'
      simp only [List.append_assoc, List.singleton_append]

theorem stripFrom_match (h : re.run (c :: text) = some (m, rest)) :
    stripFrom re out true (c :: text) =
      if (out.rtakeWhile (· = '\n')).length + (rest.takeWhile (· = '\n')).length > 2 then
        stripFrom re (out.rdropWhile (· = '\n') ++ ['\n', '\n'])
          (0 < (rest.takeWhile (· = '\n')).length || endsLine m) (rest.dropWhile (· = '\n'))
      else stripFrom re out (endsLine m) rest := by
  have hexec : re.exec true (c :: text) = some ([], m, rest) := by
    rw [LinePattern.exec, if_pos rfl, h]
  rw [stripFrom]
  split
  case h_1 h' =>
    rw [hexec] at h'
    cases h'
  case h_2 h' =>
    rw [hexec] at h'
    cases h'
    simp only [List.append_nil]

/-- A line begins behind `p`, where `atStart` says whether one begins in front of it. -/
def StartsAt (atStart : Bool) (p : List Char) : Prop :=
  if p = [] then atStart = true else endsLine p = true

@[simp] theorem startsAt_nil : StartsAt atStart [] ↔ atStart = true := by simp [StartsAt]

theorem startsAt_of_ne_nil (h : s ≠ []) : StartsAt atStart s ↔ endsLine s = true := by simp [StartsAt, h]

theorem startsAt_cons : StartsAt atStart (c :: s) ↔ StartsAt (lineTerminator c) s := by
  rw [startsAt_of_ne_nil (by simp)]
  cases s with
  | nil => simp [endsLine]
  | cons d s => rw [startsAt_of_ne_nil (by simp), ← List.singleton_append, endsLine_append (by simp)]

/-- A stretch in which nothing is taken is copied. -/
theorem stripFrom_through {pre : List Char}
    (h : ∀ p q, pre = p ++ q → q ≠ [] → StartsAt atStart p → re.run (q ++ text) = none) :
    stripFrom re out atStart (pre ++ text) =
      stripFrom re (out ++ pre) (if pre = [] then atStart else endsLine pre) text := by
  induction pre generalizing out atStart with
  | nil => rw [List.nil_append, List.append_nil, if_pos rfl]
  | cons c pre ih =>
    have hskip : atStart = true → re.run (c :: (pre ++ text)) = none := by
      intro hat
      exact h [] (c :: pre) rfl (List.cons_ne_nil c pre) (by simpa using hat)
    rw [List.cons_append, stripFrom_skip hskip, ih]
    · rw [List.append_assoc, List.singleton_append, if_neg (List.cons_ne_nil c pre)]
      congr 1
      cases pre with
      | nil => simp [endsLine]
      | cons d pre =>
        rw [if_neg (List.cons_ne_nil d pre)]
        show endsLine (d :: pre) = endsLine ([c] ++ d :: pre)
        rw [endsLine_append (List.cons_ne_nil d pre)]
    · intro p q hpq hq hp
      exact h (c :: p) q (by rw [hpq]; rfl) hq (startsAt_cons.mpr hp)

/-! ### Healing -/

theorem chars_of_newlines {X : List (Char × β)} (h : ∀ x ∈ X, x.1 = '\n') :
    chars X = List.replicate X.length '\n' := by
  rw [List.eq_replicate_iff]
  refine ⟨by simp [chars], ?_⟩
  intro c hc
  obtain ⟨x, hx, rfl⟩ := List.mem_map.mp hc
  exact h x hx

theorem newlines_of_chars {X : List (Char × β)} (h : ∀ c ∈ chars X, c = '\n') : ∀ x ∈ X, x.1 = '\n' :=
  fun x hx => h x.1 (List.mem_map_of_mem hx)

/-- Newlines at the end of a text. -/
theorem getLast?_newlines {X Y : List (Char × β)} (hY : ∀ x ∈ Y, x.1 = '\n') (hne : Y ≠ []) :
    (chars (X ++ Y)).getLast? = some '\n' := by
  have hpos : Y.length ≠ 0 := by simpa using hne
  rw [chars_append, chars_of_newlines hY, List.getLast?_append_of_ne_nil _ (by simpa using hpos),
    List.getLast?_replicate, if_neg hpos]

theorem atStart_of_newline (h : text.getLast? = some '\n') : AtStart text := by
  refine Or.inr ?_
  rw [endsLine, h]
  rfl

/-- A healed seam is a cut that leaves two newlines. -/
theorem exists_cutAt_of_heal {O M NL Rest : List (Char × β)} (hO : AtStart (chars O))
    (hNL : ∀ x ∈ NL, x.1 = '\n') (hstop : lineEnd (chars (NL ++ Rest)) = true)
    (hheal : ((chars O).rtakeWhile (· = '\n')).length + ((chars Rest).takeWhile (· = '\n')).length > 2) :
    ∃ A N N' B₁ B₂, O = A ++ N ∧ NL ++ Rest = N' ++ (B₁ ++ B₂) ∧ CutAt A N M N' (B₁ ++ B₂) ∧
      (∀ x ∈ B₁, x.1 = '\n') ∧ chars (A ++ B₁) = (chars O).rdropWhile (· = '\n') ++ ['\n', '\n'] ∧
      chars B₂ = (chars Rest).dropWhile (· = '\n') := by
  have hout : chars O = (chars O).rdropWhile (· = '\n') ++ (chars O).rtakeWhile (· = '\n') :=
    List.rdropWhile_append_rtakeWhile.symm
  have hrest : chars Rest = (chars Rest).takeWhile (· = '\n') ++ (chars Rest).dropWhile (· = '\n') :=
    List.takeWhile_append_dropWhile.symm
  obtain ⟨O₁, O₂, hO', hO₁, hO₂⟩ := chars_eq_append_iff.mp hout
  obtain ⟨R₁, R₂, hR', hR₁, hR₂⟩ := chars_eq_append_iff.mp hrest
  have hnO : ∀ x ∈ O₂, x.1 = '\n' := by
    refine newlines_of_chars fun c hc => ?_
    rw [hO₂] at hc
    simpa using List.mem_rtakeWhile_imp hc
  have hnR : ∀ x ∈ NL ++ R₁, x.1 = '\n' := by
    intro x hx
    rcases List.mem_append.mp hx with hx | hx
    · exact hNL x hx
    · refine newlines_of_chars (fun c hc => ?_) x hx
      rw [hR₁] at hc
      simpa using List.mem_takeWhile_imp hc
  rw [← hO₂, ← hR₁, chars, chars, List.length_map, List.length_map] at hheal
  rw [← hO₁, ← hR₂]
  subst hO' hR'
  -- two newlines stay: as many as there are of those before the cut, the others of those behind it
  obtain ⟨k, hk⟩ : ∃ k, k = min O₂.length 2 := ⟨_, rfl⟩
  have hlen : 2 - k ≤ (NL ++ R₁).length := by
    rw [List.length_append]
    omega
  have hnA : ∀ x ∈ O₂.take k, x.1 = '\n' := fun x hx => hnO x (List.mem_of_mem_take hx)
  have hnB : ∀ x ∈ (NL ++ R₁).drop ((NL ++ R₁).length - (2 - k)), x.1 = '\n' :=
    fun x hx => hnR x (List.mem_of_mem_drop hx)
  have hsplit : NL ++ (R₁ ++ R₂) = (NL ++ R₁).take ((NL ++ R₁).length - (2 - k)) ++
      ((NL ++ R₁).drop ((NL ++ R₁).length - (2 - k)) ++ R₂) := by
    rw [← List.append_assoc, ← List.append_assoc, List.take_append_drop]
  have hlast : 0 < k → (chars (O₁ ++ O₂.take k)).getLast? = some '\n' := by
    intro hpos
    refine getLast?_newlines hnA ?_
    rw [← List.length_pos_iff, List.length_take]
    omega
  refine ⟨O₁ ++ O₂.take k, O₂.drop k, _, _, R₂, ?_, hsplit, ⟨?_, ?_, ?_, ?_, ?_⟩, hnB, ?_, rfl⟩
  · rw [List.append_assoc, List.take_append_drop]
  · by_cases hpos : 0 < k
    · exact atStart_of_newline (hlast hpos)
    · have hnil : O₂ = [] := List.length_eq_zero_iff.mp (by omega)
      simpa [hnil] using hO
  · rwa [List.append_assoc, List.take_append_drop]
  · intro hne
    refine hlast ?_
    have hpos : 0 < O₂.length - k := by simpa using List.length_pos_iff.mpr hne
    omega
  · intro x hx
    rcases List.mem_append.mp hx with hx | hx
    exacts [hnO x (List.mem_of_mem_drop hx), hnR x (List.mem_of_mem_take hx)]
  · rwa [← hsplit]
  · have htwo : (O₂.take k).length + ((NL ++ R₁).drop ((NL ++ R₁).length - (2 - k))).length = 2 := by
      rw [List.length_take, List.length_drop]
      omega
    rw [List.append_assoc, chars_append, chars_append, chars_of_newlines hnA, chars_of_newlines hnB,
      ← List.replicate_add, htwo]
    rfl

/-! ### The rule for a pass -/

/-- A pattern for whole lines. -/
structure WholeLines (re : LinePattern) : Prop where
  stop : ∀ {text m rest}, re.lines text = some (m, rest) → lineEnd rest = true
  head : ∀ {text m rest}, re.lines text = some (m, rest) → lineEnd text = false

theorem exists_newlines_of_optionalNewline {m' rest' : List Char} (h : optionalNewline (m', rest') = (m, rest)) :
    ∃ nl, m = m' ++ nl ∧ rest' = nl ++ rest ∧ ∀ c ∈ nl, c = '\n' := by
  unfold optionalNewline at h
  split at h
  case h_1 heq =>
    cases heq
    cases h
    exact ⟨['\n'], rfl, rfl, by simp⟩
  case h_2 heq =>
    cases heq
    cases h
    exact ⟨[], by simp, rfl, by simp⟩

/-- Where no block is cut at the start of a line, the pattern does not match there. -/
theorem lines_eq_none (hre : WholeLines re) {text : List Char} {x : Char}
    (hmatch : ¬(atStart = true ∧ re.run (x :: text) ≠ none)) (hflag : atStart = true ∨ lineEnd (x :: text) = true) :
    re.lines (x :: text) = none := by
  rcases hflag with hat | hend
  · by_contra hne
    exact hmatch ⟨hat, fun hrun => hne (Option.map_eq_none_iff.mp hrun)⟩
  · cases hsome : re.lines (x :: text) with
    | none => rfl
    | some r =>
      rw [hre.head hsome] at hend
      cases hend

/-- The flag behind a cut that is healed: the place is at the start of a line, and either the flag says so or the line
ends at once. -/
theorem flag_of_heal {NL Rest : List (Char × β)} {ended : Bool} (hstop : lineEnd (chars (NL ++ Rest)) = true)
    (hended : NL ≠ [] → ended = true) :
    (decide (0 < ((chars Rest).takeWhile (· = '\n')).length) || ended) = true ∨
      lineEnd ((chars Rest).dropWhile (· = '\n')) = true := by
  by_cases hNL : NL = []
  · rw [hNL, List.nil_append] at hstop
    cases hwhile : (chars Rest).takeWhile (· = '\n') with
    | cons c l => exact .inl (by simp)
    | nil =>
      right
      have hsame : chars Rest = (chars Rest).dropWhile (· = '\n') := by
        conv_lhs => rw [← List.takeWhile_append_dropWhile (p := (· = '\n')) (l := chars Rest), hwhile]
        rfl
      rwa [← hsame]
  · exact .inl (by rw [hended hNL, Bool.or_true])

/-- What holds of the text written and the text ahead at the start of a pass, and is kept by each step, holds in the
end. -/
theorem stripFrom_run {I : List (Char × β) → List (Char × β) → Prop} (hre : WholeLines re)
    (hskip : ∀ O x R, I O (x :: R) → (AtStart (chars O) → re.lines (chars (x :: R)) = none) → I (O ++ [x]) R)
    (hcut : ∀ A N M N' B₁ B₂, I (A ++ N) (M ++ (N' ++ (B₁ ++ B₂))) → CutAt A N M N' (B₁ ++ B₂) →
      (∀ x ∈ B₁, x.1 = '\n') →
      re.lines (chars M ++ chars (N' ++ (B₁ ++ B₂))) = some (chars M, chars (N' ++ (B₁ ++ B₂))) → I (A ++ B₁) B₂)
    {O R : List (Char × β)} (hinv : I O R) (hflag : atStart = true → AtStart (chars O))
    (hflag' : AtStart (chars O) → atStart = true ∨ lineEnd (chars R) = true) :
    ∃ X, chars X = stripFrom re (chars O) atStart (chars R) ∧ I X [] := by
  -- a match is longer than one character, so the induction is on the length of the text ahead
  obtain ⟨n, hn⟩ : ∃ n, n = R.length := ⟨_, rfl⟩
  induction n using Nat.strong_induction_on generalizing O R atStart with
  | _ n ih =>
  cases R with
  | nil => exact ⟨O, by simp, hinv⟩
  | cons x R =>
    by_cases hmatch : atStart = true ∧ re.run (chars (x :: R)) ≠ none
    case neg =>
      -- one more character is written
      have hrun : atStart = true → re.run (x.1 :: chars R) = none := by
        intro hat
        by_contra hne
        exact hmatch ⟨hat, hne⟩
      have hlines : AtStart (chars O) → re.lines (chars (x :: R)) = none := fun hO =>
        lines_eq_none hre hmatch (hflag' hO)
      obtain ⟨X, hX, hend⟩ :
          ∃ X, chars X = stripFrom re (chars (O ++ [x])) (lineTerminator x.1) (chars R) ∧ I X [] := by
        refine ih R.length (by simp [hn]) (hskip O x R hinv hlines) ?_ ?_ rfl
        all_goals
          intro hx
          rw [chars_append, atStart_append (by simp [chars])] at *
        · exact hx
        · exact Or.inl hx
      refine ⟨X, ?_, hend⟩
      rw [hX, chars_append]
      exact (stripFrom_skip hrun).symm
    case pos =>
      -- a block `M` is cut, with the newline `NL` behind it where there is one
      obtain ⟨rfl, hrun⟩ := hmatch
      have hO := hflag rfl
      obtain ⟨⟨m, rest⟩, hrun⟩ := Option.ne_none_iff_exists'.mp hrun
      obtain ⟨⟨m', rest'⟩, hlines, hopt⟩ := Option.map_eq_some_iff.mp hrun
      obtain ⟨nl, rfl, rfl, hnl⟩ := exists_newlines_of_optionalNewline hopt
      obtain ⟨htext, hne⟩ := re.takes hlines
      obtain ⟨M, NR, hR, rfl, hNR⟩ := chars_eq_append_iff.mp htext
      obtain ⟨NL, Rest, rfl, rfl, rfl⟩ := chars_eq_append_iff.mp hNR
      have hNL := newlines_of_chars hnl
      have hstop : lineEnd (chars (NL ++ Rest)) = true := by simpa using hre.stop hlines
      have hlt : Rest.length < n ∧ NL.length + Rest.length < n := by
        have hlen := congrArg List.length hR
        have hpos : 0 < M.length := List.length_pos_iff.mpr (by simpa using hne)
        simp only [List.length_append] at hlen
        omega
      have hend : NL ≠ [] → endsLine (chars M ++ chars NL) = true := by
        intro h
        have hlast := getLast?_newlines (X := M) hNL h
        rw [chars_append] at hlast
        rw [endsLine, hlast]
        rfl
      rw [hR] at hinv
      rw [chars_cons] at hrun ⊢
      rw [stripFrom_match hrun]
      split
      case isTrue hheal =>
        -- the newlines around the cut become two
        obtain ⟨A, N, N', B₁, B₂, rfl, hsplit, hcutAt, hB₁, hA, hB₂⟩ := exists_cutAt_of_heal (M := M) hO hNL hstop hheal
        rw [← hA, ← hB₂]
        rw [hsplit] at hinv
        rw [hR, ← chars_append, hsplit, chars_append] at hlines
        refine ih B₂.length ?_ (hcut A N M N' B₁ B₂ hinv hcutAt hB₁ hlines) ?_ ?_ rfl
        · have hlen := congrArg List.length hsplit
          simp only [List.length_append] at hlen
          omega
        · intro
          rw [hA]
          exact atStart_of_newline (by simp)
        · intro
          rw [hB₂]
          exact flag_of_heal hstop hend
      case isFalse hheal =>
        -- the cut is left as it is
        refine ih Rest.length hlt.1 ?_ (fun _ => hO) ?_ rfl
        · have hcutAt : CutAt O [] M NL ([] ++ Rest) :=
            ⟨hO, by simpa using hO, fun h => absurd rfl h, by simpa using hNL, by simpa using hstop⟩
          have hkept := hcut O [] M NL [] Rest (by simpa using hinv) hcutAt (by simp)
            (by simpa [hR] using hlines)
          simpa using hkept
        · intro
          by_cases hNLe : NL = []
          · exact Or.inr (by simpa [hNLe] using hstop)
          · exact Or.inl (hend hNLe)

/-! ### What a pass keeps -/

/-- A text that came out of another by cuts of hard characters and newlines next to them; no marker is new in it, and one
that does not stand any more is gone. -/
structure Kept (hard : β → Prop) (T X : List (Char × β)) : Prop where
  cut : Cut (fun x => x.1 = '\n') (fun x => hard x.2) T X
  begins : ∀ P, Each beginLine P T → Each beginLine P X
  ends : ∀ P, Each endLine P T → Each endLine P X
  markers : T.Nodup → ∀ S, IsMarker (chars S) → StandsIn S T → StandsIn S X ∨ ∀ x ∈ S, x ∉ X

/-- What is cut out of the middle is not in the rest. -/
theorem not_mem_of_nodup {A N M N' B : List (Char × β)} (h : (A ++ N ++ (M ++ (N' ++ B))).Nodup) {x : Char × β}
    (hx : x ∈ M) : x ∉ A ++ B := by
  rw [List.nodup_append] at h
  obtain ⟨-, h, hleft⟩ := h
  rw [List.nodup_append] at h
  obtain ⟨-, -, hright⟩ := h
  intro hmem
  rcases List.mem_append.mp hmem with hmem | hmem
  · exact hleft x (List.mem_append_left N hmem) x (List.mem_append_left _ hx) rfl
  · exact hright x hx x (List.mem_append_right N' hmem) rfl

namespace Kept

variable {hard : β → Prop} {T X Y A N M N' B : List (Char × β)}

theorem refl (T : List (Char × β)) : Kept hard T T :=
  ⟨.refl T, fun _ h => h, fun _ h => h, fun _ _ _ h => Or.inl h⟩

theorem trans (h : Kept hard T X) (h' : Kept hard X Y) : Kept hard T Y where
  cut := h.cut.trans h'.cut
  begins := fun P hP => h'.begins P (h.begins P hP)
  ends := fun P hP => h'.ends P (h.ends P hP)
  markers := by
    intro hT S hS hstands
    rcases h.markers hT S hS hstands with hX | hgone
    · exact h'.markers (hT.sublist h.cut.sublist) S hS hX
    · exact Or.inr fun x hx hY => hgone x hx (h'.cut.sublist.subset hY)

theorem step (h : Kept hard T (A ++ N ++ (M ++ (N' ++ B)))) (hcut : CutAt A N M N' B) (hM : EndsComment (chars M))
    (hhard : ∀ x ∈ M, hard x.2)
    (hclosed : ∀ U S, A = U ++ S → S ≠ [] → AtStart (chars U) → ¬Open BeginMarker (chars S)) :
    Kept hard T (A ++ B) := by
  have hends : ∀ U S, A = U ++ S → S ≠ [] → AtStart (chars U) → ¬Open EndMarker (chars S) :=
    fun U S hA hS _ => not_open_endMarker (hcut.ends_before hA hS)
  have heq : A ++ N ++ (M ++ (N' ++ B)) = A ++ N ++ M ++ N' ++ B := by simp
  refine h.trans ⟨?_, ?_, ?_, ?_⟩
  · -- what is cut is one marker and the newlines around it
    have hgap : Gap (fun x : Char × β => x.1 = '\n') (fun x => hard x.2) (N ++ M ++ N') := by
      constructor
      · intro x hx
        rw [List.mem_append, List.mem_append] at hx
        rcases hx with (hx | hx) | hx
        · exact Or.inl (hcut.newlines x (List.mem_append_left N' hx))
        · exact Or.inr (hhard x hx)
        · exact Or.inl (hcut.newlines x (List.mem_append_right N hx))
      · obtain ⟨p, trail, heq, -⟩ := hM
        have hne : M ≠ [] := by
          rintro rfl
          simp at heq
        obtain ⟨x, hx⟩ := List.exists_mem_of_ne_nil M hne
        exact ⟨x, by simp [hx], hhard x hx⟩
    have hof : Cut _ _ (A ++ (N ++ M ++ N') ++ B) (A ++ B) := Cut.of_gap hgap
    rw [heq]
    simpa using hof
  · rw [heq]
    exact fun P hP => hP.cut takesBegin hcut hclosed
  · rw [heq]
    exact fun P hP => hP.cut takesEnd hcut hends
  · intro hnodup S hS hstands
    refine (hstands.cut hcut hM hclosed hS).imp_right ?_
    rintro ⟨Y, Z, rfl⟩ x hx
    exact not_mem_of_nodup hnodup (by simp [hx])

end Kept

/-- No line of the text written is taken. -/
def Scanned (q : List Char → Option Match) (O R : List (Char × β)) : Prop :=
  ∀ U S, O = U ++ S → S ≠ [] → AtStart (chars U) → q (chars (S ++ R)) = none

namespace Scanned

variable {q : List Char → Option Match} {Shape : List Char → Prop} {O R A N M N' B₁ B₂ : List (Char × β)}

theorem skip {x : Char × β} (h : Scanned q O (x :: R)) (hx : AtStart (chars O) → q (chars (x :: R)) = none) :
    Scanned q (O ++ [x]) R := by
  intro U S heq hS hstart
  cases S using List.reverseRecOn with
  | nil => exact absurd rfl hS
  | append_singleton S y =>
    rw [← List.append_assoc] at heq
    obtain ⟨rfl, hy⟩ := List.append_inj' heq rfl
    obtain rfl := List.singleton_injective hy
    rw [List.append_assoc, List.singleton_append]
    by_cases hS : S = []
    · subst hS
      exact hx (by simpa using hstart)
    · exact h U S rfl hS hstart

theorem cut (h : Scanned q (A ++ N) (M ++ (N' ++ (B₁ ++ B₂)))) (hq : Takes q Shape)
    (hcut : CutAt A N M N' (B₁ ++ B₂)) (hB₁ : ∀ x ∈ B₁, x.1 = '\n')
    (hclosed : ∀ U S, A = U ++ S → S ≠ [] → AtStart (chars U) → ¬Open Shape (chars S)) :
    Scanned q (A ++ B₁) B₂ := by
  intro U S heq hS hstart
  -- a match that begins before the cut was there before, as nothing open ends in it
  have hwithin : ∀ A₂, A = U ++ A₂ → A₂ ≠ [] → S = A₂ ++ B₁ → q (chars (S ++ B₂)) = none := by
    rintro A₂ rfl hne rfl
    have hopen := hclosed U A₂ rfl hne hstart
    have hold := h U (A₂ ++ N) (by simp) (by simp [hne]) hstart
    rw [Option.eq_none_iff_forall_ne_some] at hold ⊢
    rintro ⟨m, rest⟩ htake
    rw [List.append_assoc, chars_append, hq.eq_some_of_not_open hopen] at htake
    obtain ⟨r, hr, hAr, -, hm, hend⟩ := htake
    refine hold (m, r ++ chars (N ++ (M ++ (N' ++ (B₁ ++ B₂))))) ?_
    rw [List.append_assoc, chars_append, hq.eq_some_of_not_open hopen]
    exact ⟨r, hr, hAr, rfl, hm, hend⟩
  -- none begins at a newline
  have hnewlines : ∀ x S', S = x :: S' → x.1 = '\n' → q (chars (S ++ B₂)) = none := by
    rintro x S' rfl hx
    rw [Option.eq_none_iff_forall_ne_some]
    rintro ⟨m, rest⟩ htake
    obtain ⟨htext, hm, -⟩ := hq.eq_some_iff.mp htake
    obtain ⟨c, w, rfl, hc⟩ := hq.head hm
    rw [List.cons_append, chars_cons, hx] at htext
    obtain ⟨rfl, -⟩ := List.cons_eq_cons.mp htext
    cases hc
  cases S with
  | nil => exact absurd rfl hS
  | cons x S =>
    obtain ⟨B₃, hU, hB₃⟩ | ⟨A₂, hA₂, hS'⟩ := List.append_eq_append_iff.mp heq
    · exact hnewlines x S rfl (hB₁ x (by simp [hB₃]))
    · by_cases hne : A₂ = []
      · subst hne
        rw [List.nil_append] at hS'
        exact hnewlines x S rfl (hB₁ x (by simp [← hS']))
      · exact hwithin A₂ hA₂ hne hS'

theorem each_false (h : Scanned q O []) (hq : Takes q Shape) : Each q (fun _ => False) O := by
  intro U S V heq hstart htake
  have hne : S ++ V ≠ [] := by
    obtain ⟨-, hm, -⟩ := hq.eq_some_iff.mp htake
    obtain ⟨c, w, hw, -⟩ := hq.head hm
    rintro h
    obtain ⟨rfl, -⟩ := List.append_eq_nil_iff.mp h
    cases hw
  have hnone := h U (S ++ V) (by rw [heq, List.append_assoc]) hne hstart
  rw [List.append_nil, chars_append, htake] at hnone
  cases hnone

end Scanned

/-! ### The passes -/

theorem wholeLines_of_takes {re : LinePattern} {Shape : List Char → Prop} (h : Takes re.lines Shape) :
    WholeLines re where
  stop := fun htake => (h.eq_some_iff.mp htake).2.2
  head := by
    intro text m rest htake
    obtain ⟨rfl, hm, -⟩ := h.eq_some_iff.mp htake
    obtain ⟨c, w, rfl, hc⟩ := h.head hm
    exact hc

theorem Each.scanned {q : List Char → Option Match} {O R : List (Char × β)} (h : Each q (fun _ => False) (O ++ R))
    (hq : ∀ {text m rest}, q text = some (m, rest) → text = m ++ rest) : Scanned q O R := by
  intro U S heq hS hstart
  rw [Option.eq_none_iff_forall_ne_some]
  rintro ⟨m, rest⟩ htake
  obtain ⟨S', V, hSR, rfl, rfl⟩ := chars_eq_append_iff.mp (hq htake)
  rw [hSR, chars_append] at htake
  exact h U S' V (by rw [heq, List.append_assoc, hSR, List.append_assoc]) hstart htake

/-- No begin marker is open where a marker is cut: it would have been closed by it. -/
theorem not_open_of_scanned {A N M N' B : List (Char × β)} (hcut : CutAt A N M N' B) (hM : Closing (chars M))
    (hscanned : Scanned beginLine (A ++ N) (M ++ (N' ++ B))) :
    ∀ U S, A = U ++ S → S ≠ [] → AtStart (chars U) → ¬Open BeginMarker (chars S) := by
  intro U S hA hS hstart hopen
  obtain rfl := hcut.before_eq_nil hA hS hopen.not_newline
  have hnone := hscanned U S (by simpa using hA) hS hstart
  have hmarker := BeginMarker.of_open hopen (hcut.ends_before hA hS) hM
  have hsome : beginLine (chars S ++ chars M ++ chars (N' ++ B)) = some (chars S ++ chars M, chars (N' ++ B)) :=
    beginLine_eq_some_iff.mpr ⟨rfl, hmarker, hcut.stop⟩
  rw [chars_append, chars_append, ← List.append_assoc, hsome] at hnone
  cases hnone

/-- Markers alone on their lines are cut, where none of the lines before could run on into a begin marker. -/
theorem exists_orphan {re : LinePattern} {Shape : List Char → Prop} {hard : β → Prop} {T : List (Char × β)}
    (hre : Takes re.lines Shape) (hclosing : ∀ {m}, Shape m → Closing m)
    (hopen : ∀ {s}, endsLine s = true → ¬Open BeginMarker s → ¬Open Shape s)
    (hbegin : ∀ O R, Kept hard T (O ++ R) → Scanned re.lines O R → Scanned beginLine O R)
    (hhard : ∀ X, Kept hard T X → Each re.lines (fun S => ∀ x ∈ S, hard x.2) X) :
    ∃ X, chars X = stripAndHealSeams (chars T) re ∧ Kept hard T X ∧ Each re.lines (fun _ => False) X := by
  obtain ⟨X, hX, hkept, hscanned⟩ := stripFrom_run
    (I := fun O R => Kept hard T (O ++ R) ∧ Scanned re.lines O R) (wholeLines_of_takes hre) (O := []) (R := T) (by
      rintro O x R ⟨hkept, hscanned⟩ hnone
      exact ⟨by simpa using hkept, hscanned.skip hnone⟩) (by
      rintro A N M N' B₁ B₂ ⟨hkept, hscanned⟩ hcut hB₁ htake
      have hM := hclosing (hre.eq_some_iff.mp htake).2.1
      have hclosed := not_open_of_scanned hcut hM (hbegin _ _ hkept hscanned)
      refine ⟨?_, hscanned.cut hre hcut hB₁ fun U S hA hS hU => hopen (hcut.ends_before hA hS) (hclosed U S hA hS hU)⟩
      rw [List.append_assoc]
      refine hkept.step hcut (hM.endsComment []) ?_ hclosed
      exact hhard _ hkept (A ++ N) M (N' ++ (B₁ ++ B₂)) (by simp) hcut.start_lines htake)
    ⟨.refl T, by rintro U S heq hS -; simp_all⟩ (fun _ => Or.inl rfl) (fun _ => Or.inl rfl)
  rw [List.append_nil] at hkept
  exact ⟨X, hX, hkept, hscanned.each_false hre⟩

theorem exists_orphanBegin {hard : β → Prop} {T : List (Char × β)}
    (hhard : Each beginLine (fun S => ∀ x ∈ S, hard x.2) T) :
    ∃ X, chars X = stripAndHealSeams (chars T) .orphanBegin ∧ Kept hard T X ∧ Each beginLine (fun _ => False) X := by
  have hre : Takes LinePattern.orphanBegin.lines BeginMarker := takesBegin
  exact exists_orphan hre BeginMarker.closing (fun _ h => h) (fun _ _ _ h => h) fun _ hkept => hkept.begins _ hhard

theorem exists_orphanEnd {hard : β → Prop} {T : List (Char × β)} (hnone : Each beginLine (fun _ => False) T)
    (hhard : Each endLine (fun S => ∀ x ∈ S, hard x.2) T) :
    ∃ X, chars X = stripAndHealSeams (chars T) .orphanEnd ∧ Kept hard T X ∧ Each endLine (fun _ => False) X := by
  have hre : Takes LinePattern.orphanEnd.lines EndMarker := takesEnd
  exact exists_orphan hre EndMarker.closing (fun hs _ => not_open_endMarker hs)
    (fun _ _ hkept _ => (hkept.begins _ hnone).scanned fun h => (takes_beginLine h).1)
    fun _ hkept => hkept.ends _ hhard

/-! ### Blocks -/

/-- What stands behind a begin marker: up to the next line that is an end marker no begin marker begins. -/
structure BlockBody (body stop rest : List Char) : Prop where
  marker : EndMarker stop
  lineEnd : lineEnd rest = true
  endsLine : endsLine body = true
  no_begin : ∀ p q, body = p ++ q → q ≠ [] → beginSrc (q ++ (stop ++ rest)) = none
  next : ∀ p q, body = p ++ q → q ≠ [] → Adopt.endsLine p = true → endLine (q ++ (stop ++ rest)) = none

/-- What the body of a block says about each place in it. -/
structure LazyBody (atStart : Bool) (body stop rest : List Char) : Prop where
  marker : EndMarker stop
  lineEnd : lineEnd rest = true
  startsAt : StartsAt atStart body
  no_begin : ∀ p q, body = p ++ q → q ≠ [] → beginSrc (q ++ (stop ++ rest)) = none
  next : ∀ p q, body = p ++ q → q ≠ [] → StartsAt atStart p → endLine (q ++ (stop ++ rest)) = none

theorem LazyBody.cons_iff {body stop : List Char} : LazyBody atStart (c :: body) stop rest ↔
    (if atStart then endLine (c :: (body ++ (stop ++ rest))) else none) = none ∧
      beginSrc (c :: (body ++ (stop ++ rest))) = none ∧ LazyBody (lineTerminator c) body stop rest := by
  constructor
  · intro h
    refine ⟨?_, h.no_begin [] (c :: body) rfl (by simp), h.marker, h.lineEnd, startsAt_cons.mp h.startsAt, ?_, ?_⟩
    · split
      case isTrue hat => exact h.next [] (c :: body) rfl (by simp) (by simpa using hat)
      case isFalse => rfl
    · exact fun p q hpq hq => h.no_begin (c :: p) q (by rw [hpq]; rfl) hq
    · exact fun p q hpq hq hp => h.next (c :: p) q (by rw [hpq]; rfl) hq (startsAt_cons.mpr hp)
  · rintro ⟨hend, hbegin, h⟩
    refine ⟨h.marker, h.lineEnd, startsAt_cons.mpr h.startsAt, ?_, ?_⟩
    · intro p q hpq hq
      -- the first character is asked here, and the others by the shorter body
      cases p with
      | nil =>
        rw [List.nil_append] at hpq
        rw [← hpq]
        exact hbegin
      | cons d p => exact h.no_begin p q (List.cons_eq_cons.mp hpq).2 hq
    · intro p q hpq hq hp
      cases p with
      | nil =>
        rw [List.nil_append] at hpq
        rw [startsAt_nil] at hp
        rw [if_pos hp] at hend
        rw [← hpq]
        exact hend
      | cons d p =>
        obtain ⟨rfl, hbody⟩ := List.cons_eq_cons.mp hpq
        exact h.next p q hbody hq (startsAt_cons.mp hp)

theorem lazyBody_eq_some_iff : lazyBody atStart text = some (m, rest) ↔
    ∃ body stop, m = body ++ stop ∧ text = body ++ (stop ++ rest) ∧ LazyBody atStart body stop rest := by
  -- the induction is on the text: the body ends here, or goes on by a character
  induction text generalizing atStart m with
  | nil =>
    constructor
    · intro h
      cases h
    · rintro ⟨body, stop, -, htext, hbody⟩
      obtain ⟨c, w, rfl, -⟩ := takesEnd.head hbody.marker
      simp at htext
  | cons c text ih =>
    rw [lazyBody, Option.or_eq_some_iff]
    constructor
    · rintro (h | ⟨hnone, h⟩)
      · split at h
        case isFalse => cases h
        case isTrue hat =>
          obtain ⟨htext, hm, hend⟩ := endLine_eq_some_iff.mp h
          refine ⟨[], m, rfl, htext, hm, hend, by simp [hat], ?_, ?_⟩
          all_goals
            intro p q hpq hq
            exact absurd (List.append_eq_nil_iff.mp hpq.symm).2 hq
      · split at h
        case isTrue => cases h
        case isFalse hbegin =>
          obtain ⟨⟨m', rest'⟩, hlazy, heq⟩ := Option.map_eq_some_iff.mp h
          cases heq
          obtain ⟨body, stop, rfl, rfl, hbody⟩ := ih.mp hlazy
          exact ⟨c :: body, stop, rfl, rfl, LazyBody.cons_iff.mpr ⟨hnone, by simpa using hbegin, hbody⟩⟩
    · rintro ⟨body, stop, rfl, htext, hbody⟩
      cases body with
      | nil =>
        have hat : atStart = true := by simpa using hbody.startsAt
        refine Or.inl ?_
        rw [if_pos hat]
        exact endLine_eq_some_iff.mpr ⟨htext, hbody.marker, hbody.lineEnd⟩
      | cons d body =>
        obtain ⟨rfl, hcons⟩ := List.cons_eq_cons.mp htext
        obtain ⟨hnone, hbegin, hbody'⟩ := LazyBody.cons_iff.mp hbody
        have hrest := ih.mpr ⟨body, stop, rfl, hcons, hbody'⟩
        rw [List.append_eq] at hcons
        subst hcons
        refine Or.inr ⟨hnone, ?_⟩
        rw [hbegin, hrest]
        rfl

theorem lazyBody_false_iff {body stop : List Char} : LazyBody false body stop rest ↔ BlockBody body stop rest := by
  have hiff : ∀ p, StartsAt false p ↔ endsLine p = true := by
    intro p
    cases p with
    | nil => simp [endsLine]
    | cons => rw [startsAt_of_ne_nil (by simp)]
  constructor
  · exact fun h => ⟨h.marker, h.lineEnd, (hiff _).mp h.startsAt, h.no_begin,
      fun p q hpq hq hp => h.next p q hpq hq ((hiff p).mpr hp)⟩
  · exact fun h => ⟨h.marker, h.lineEnd, (hiff _).mpr h.endsLine, h.no_begin,
      fun p q hpq hq hp => h.next p q hpq hq ((hiff p).mp hp)⟩

theorem wholeBlock_eq_some_iff : wholeBlock text = some (m, rest) ↔
    ∃ start body stop, m = start ++ body ++ stop ∧ beginLine text = some (start, body ++ (stop ++ rest)) ∧
      BlockBody body stop rest := by
  constructor
  · intro h
    obtain ⟨⟨start, text'⟩, hstart, h⟩ := Option.bind_eq_some_iff.mp h
    obtain ⟨⟨m', rest'⟩, hlazy, heq⟩ := Option.map_eq_some_iff.mp h
    cases heq
    obtain ⟨body, stop, rfl, rfl, hbody⟩ := lazyBody_eq_some_iff.mp hlazy
    exact ⟨start, body, stop, by simp, hstart, lazyBody_false_iff.mp hbody⟩
  · rintro ⟨start, body, stop, rfl, hstart, hbody⟩
    have hlazy := lazyBody_eq_some_iff.mpr ⟨body, stop, rfl, rfl, lazyBody_false_iff.mpr hbody⟩
    rw [wholeBlock, hstart, Option.bind_some]
    dsimp only
    rw [hlazy, Option.map_some, List.append_assoc]

theorem wholeLines_wellFormed : WholeLines .wellFormed where
  stop := by
    intro text m rest h
    obtain ⟨_, _, _, _, _, hbody⟩ := wholeBlock_eq_some_iff.mp h
    exact hbody.lineEnd
  head := by
    intro text m rest h
    obtain ⟨start, body, stop, -, hstart, -⟩ := wholeBlock_eq_some_iff.mp h
    have hre : Takes LinePattern.orphanBegin.lines BeginMarker := takesBegin
    exact (wholeLines_of_takes hre).head hstart

/-- No block begins with one of the lines written that runs on: what is looked for is the next line end. -/
def ScannedOpen (O R : List (Char × β)) : Prop :=
  ∀ U S, O = U ++ S → S ≠ [] → AtStart (chars U) → '>' ∉ chars S → '\n' ∉ chars S → wholeBlock (chars (S ++ R)) = none

namespace ScannedOpen

variable {O R A N M N' B B₁ B₂ : List (Char × β)}

theorem skip {x : Char × β} (h : ScannedOpen O (x :: R))
    (hx : AtStart (chars O) → wholeBlock (chars (x :: R)) = none) : ScannedOpen (O ++ [x]) R := by
  intro U S heq hS hstart hgt hnl
  cases S using List.reverseRecOn with
  | nil => exact absurd rfl hS
  | append_singleton S y =>
    rw [← List.append_assoc] at heq
    obtain ⟨rfl, hy⟩ := List.append_inj' heq rfl
    obtain rfl := List.singleton_injective hy
    rw [chars_append, List.mem_append, not_or] at hgt hnl
    rw [List.append_assoc, List.singleton_append]
    by_cases hS : S = []
    · subst hS
      exact hx (by simpa using hstart)
    · exact h U S rfl hS hstart hgt.1 hnl.1

/-- A begin marker left open before a block would be the beginning of that block. -/
theorem not_open (h : ScannedOpen (A ++ N) (M ++ (N' ++ B))) (hcut : CutAt A N M N' B)
    (htake : wholeBlock (chars M ++ chars (N' ++ B)) = some (chars M, chars (N' ++ B))) :
    ∀ U S, A = U ++ S → S ≠ [] → AtStart (chars U) → ¬Open BeginMarker (chars S) := by
  intro U S hA hS hstart hopen
  obtain rfl := hcut.before_eq_nil hA hS hopen.not_newline
  have hends := hcut.ends_before hA hS
  have hnone := h U S (by simpa using hA) hS hstart (hopen.not_close hends) hopen.not_newline
  obtain ⟨⟨start, text⟩, hbegin, hlazy⟩ := Option.bind_eq_some_iff.mp htake
  obtain ⟨htext, hmarker, hend⟩ := beginLine_eq_some_iff.mp hbegin
  have hsome : beginLine (chars S ++ start ++ text) = some (chars S ++ start, text) :=
    beginLine_eq_some_iff.mpr ⟨rfl, BeginMarker.of_open hopen hends hmarker.closing, hend⟩
  obtain ⟨⟨body, rest⟩, hbody, -⟩ := Option.map_eq_some_iff.mp hlazy
  have heq : chars (S ++ (M ++ (N' ++ B))) = chars S ++ start ++ text := by
    rw [chars_append, chars_append M, htext, List.append_assoc]
  rw [heq, wholeBlock, hsome, Option.bind_some] at hnone
  dsimp only at hnone
  rw [hbody] at hnone
  cases hnone

theorem cut (h : ScannedOpen (A ++ N) (M ++ (N' ++ (B₁ ++ B₂)))) (hcut : CutAt A N M N' (B₁ ++ B₂))
    (hB₁ : ∀ x ∈ B₁, x.1 = '\n')
    (hclosed : ∀ U S, A = U ++ S → S ≠ [] → AtStart (chars U) → ¬Open BeginMarker (chars S)) :
    ScannedOpen (A ++ B₁) B₂ := by
  intro U S heq hS hstart hgt hnl
  have hB : B₁ = [] := by
    cases B₁ using List.reverseRecOn with
    | nil => rfl
    | append_singleton B₁ x =>
      cases S using List.reverseRecOn with
      | nil => exact absurd rfl hS
      | append_singleton S y =>
        rw [← List.append_assoc, ← List.append_assoc] at heq
        obtain rfl := List.singleton_injective (List.append_inj' heq rfl).2
        exact absurd (by simp [chars, hB₁ x (by simp)]) hnl
  subst hB
  rw [List.append_nil] at heq
  have hopen := hclosed U S heq hS hstart
  have hnone : beginLine (chars (S ++ B₂)) = none := by
    rw [Option.eq_none_iff_forall_ne_some]
    rintro ⟨m, rest⟩ htake
    rw [chars_append, takesBegin.eq_some_of_not_open hopen] at htake
    obtain ⟨r, -, hr, -, hm, -⟩ := htake
    rw [hr] at hgt
    exact hgt (List.mem_append_left r hm.close_mem)
  rw [wholeBlock, hnone]
  rfl

end ScannedOpen

/-- Two blocks that overlap end together: the second begins in the begin marker of the first. -/
theorem wholeBlock_suffix {y g z : List Char} (hm : wholeBlock (y ++ s) = some (m, rest))
    (hg : wholeBlock s = some (g, z)) (hy : endsLine y = true) (hlt : y.length < m.length) : m = y ++ g ∧ rest = z := by
  obtain ⟨start', body', stop', rfl, hbegin', hbody'⟩ := wholeBlock_eq_some_iff.mp hm
  obtain ⟨start, body, stop, rfl, hbegin, hbody⟩ := wholeBlock_eq_some_iff.mp hg
  obtain ⟨htext', hstart', hend'⟩ := beginLine_eq_some_iff.mp hbegin'
  obtain ⟨htext, hstart, hend⟩ := beginLine_eq_some_iff.mp hbegin
  obtain ⟨y', c, hy', hc⟩ := endsLine_eq_true_iff.mp hy
  obtain ⟨u, rfl, hu⟩ | ⟨y₁, rfl, hy₁⟩ := List.append_eq_append_iff.mp htext'
  · -- both begin markers are closed by the same `>`, and both bodies begin behind it
    have hclosing := hstart'.closing.of_append hy
    obtain ⟨rfl, hrest⟩ := hstart.closing.unique hclosing (htext.symm.trans hu) hend hend'
    have hlazy := lazyBody_eq_some_iff.mpr ⟨body, stop, rfl, rfl, lazyBody_false_iff.mpr hbody⟩
    have hlazy' := lazyBody_eq_some_iff.mpr ⟨body', stop', rfl, rfl, lazyBody_false_iff.mpr hbody'⟩
    rw [hrest, hlazy'] at hlazy
    obtain ⟨hbodies, rfl⟩ := Prod.mk.inj (Option.some.inj hlazy)
    exact ⟨by rw [List.append_assoc, List.append_assoc, hbodies]; simp, rfl⟩
  obtain ⟨lead, word, trail, rfl, hlead, hword, -⟩ := hstart
  have hstart : BeginMarker (lead ++ word ++ trail) := (beginLine_eq_some_iff.mp hbegin).2.1
  have hblank : ∀ {q : List Char}, endsLine q = true → ∀ e, lead ≠ q ++ e := by
    rintro q hq e rfl
    obtain ⟨q', d, rfl, hd⟩ := endsLine_eq_true_iff.mp hq
    rw [not_lineTerminator_of_blank (hlead d (by simp))] at hd
    cases hd
  obtain ⟨q, rfl, hq⟩ | ⟨q, hq, hs⟩ := List.append_eq_append_iff.mp hy₁
  · -- it would begin in the end marker of the first
    by_cases hne : q = []
    · subst hne
      have heq : lead ++ word ++ trail ++ (body ++ (stop ++ z)) = stop' ++ rest := by
        rw [← htext, hq, List.nil_append]
      exact (hstart.ne_end hbody'.marker heq).elim
    · rw [endsLine_append (by simp [hne]), endsLine_append hne] at hy
      obtain ⟨q', d, rfl, hd⟩ := endsLine_eq_true_iff.mp hy
      obtain ⟨e, hstop⟩ : q' ++ [d] <+: stop' := by
        refine List.prefix_of_prefix_length_le ⟨s, hq.symm⟩ ⟨rest, rfl⟩ ?_
        simp only [List.length_append] at hlt ⊢
        omega
      have hfalse := hbody'.marker.line d (by rw [← hstop]; simp)
      rw [hd] at hfalse
      cases hfalse
  · -- it would begin in the body of the first
    by_cases hne : q = []
    · subst hne
      exact (hstart.ne_end hbody'.marker (htext.symm.trans hs)).elim
    · have hends := hbody'.endsLine
      rw [hq, endsLine_append hne] at hends
      have heq : lead ++ (word ++ (trail ++ (body ++ (stop ++ z)))) = q ++ (stop' ++ rest) := by
        rw [← hs, htext]
        simp
      obtain ⟨q₂, rfl, hq₂⟩ | ⟨e, he, -⟩ := List.append_eq_append_iff.mp heq
      · have hq₂ne : q₂ ≠ [] := by
          rintro rfl
          exact hblank hends [] (by simp)
        have hnone := hbody'.no_begin (y₁ ++ lead) q₂ (by rw [hq, List.append_assoc]) hq₂ne
        rw [← hq₂, beginSrc_eq_some_iff.mpr ⟨rfl, hword⟩] at hnone
        cases hnone
      · exact absurd he (hblank hends e)

/-- Every block of a text is ahead as it was, or it is gone. -/
def BlocksAhead (T O R : List (Char × β)) : Prop :=
  ∀ U G V, T = U ++ G ++ V → AtStart (chars U) → wholeBlock (chars G ++ chars V) = some (chars G, chars V) →
    (∃ Y, R = Y ++ (G ++ V) ∧ AtStart (chars (O ++ Y))) ∨ ∀ x ∈ G, x ∉ O ++ R

namespace BlocksAhead

variable {T O R A N M N' B₁ B₂ : List (Char × β)}

theorem skip {x : Char × β} (h : BlocksAhead T O (x :: R))
    (hx : AtStart (chars O) → wholeBlock (chars (x :: R)) = none) : BlocksAhead T (O ++ [x]) R := by
  intro U G V hT hstart htake
  rcases h U G V hT hstart htake with ⟨Y, hY, hYstart⟩ | hgone
  · cases Y with
    | nil =>
      have hnone := hx (by simpa using hYstart)
      rw [hY, List.nil_append, chars_append, htake] at hnone
      cases hnone
    | cons y Y =>
      obtain ⟨rfl, rfl⟩ := List.cons_eq_cons.mp hY
      exact Or.inl ⟨Y, rfl, by simpa using hYstart⟩
  · exact Or.inr (by simpa using hgone)

theorem cut (h : BlocksAhead T (A ++ N) (M ++ (N' ++ (B₁ ++ B₂)))) (hcut : CutAt A N M N' (B₁ ++ B₂))
    (hB₁ : ∀ x ∈ B₁, x.1 = '\n') (hnodup : (A ++ N ++ (M ++ (N' ++ (B₁ ++ B₂)))).Nodup)
    (htake : wholeBlock (chars M ++ chars (N' ++ (B₁ ++ B₂))) = some (chars M, chars (N' ++ (B₁ ++ B₂)))) :
    BlocksAhead T (A ++ B₁) B₂ := by
  intro U G V hT hstart hG
  rcases h U G V hT hstart hG with ⟨Y, hY, hYstart⟩ | hgone
  case inr =>
    refine Or.inr fun x hx hmem => hgone x hx ?_
    simp only [List.mem_append] at hmem ⊢
    tauto
  have hnl : ∀ {Z W : List (Char × β)}, (∀ z ∈ Z, z.1 = '\n') → Z ++ W = G ++ V → Z = [] := by
    intro Z W hZ hZW
    cases Z with
    | nil => rfl
    | cons z Z =>
      have hhead := wholeLines_wellFormed.head hG
      rw [← chars_append, ← hZW, List.cons_append, chars_cons, hZ z List.mem_cons_self] at hhead
      cases hhead
  have hnewlines : ∀ x ∈ N' ++ B₁, x.1 = '\n' := by
    intro x hx
    rcases List.mem_append.mp hx with hx | hx
    exacts [hcut.newlines x (List.mem_append_right N hx), hB₁ x hx]
  have hbehind : ∀ Z, Y = M ++ Z → N' ++ (B₁ ++ B₂) = Z ++ (G ++ V) →
      ∃ Y, B₂ = Y ++ (G ++ V) ∧ AtStart (chars (A ++ B₁ ++ Y)) := by
    intro Z hYZ hZ
    have hstart' : ∀ Z', Z = N' ++ B₁ ++ Z' → AtStart (chars (A ++ B₁ ++ Z')) := by
      intro Z' hZ'
      have hold : AtStart (chars (A ++ N ++ M ++ N' ++ (B₁ ++ Z'))) := by
        rw [hYZ, hZ'] at hYstart
        simpa using hYstart
      rw [List.append_assoc]
      exact hcut.atStart_cut hold
    rw [← List.append_assoc] at hZ
    obtain ⟨Z', hZ', hB₂⟩ | ⟨Z', hZ', hGV⟩ := List.append_eq_append_iff.mp hZ
    · exact ⟨Z', hB₂, hstart' Z' hZ'⟩
    · obtain rfl : Z' = [] := hnl (fun x hx => hnewlines x (by rw [hZ']; exact List.mem_append_right Z hx)) hGV.symm
      exact ⟨[], by simpa using hGV.symm, hstart' [] (by simpa using hZ'.symm)⟩
  obtain ⟨Z, hYZ, hZ⟩ | ⟨Q, hM, hGV⟩ := List.append_eq_append_iff.mp hY
  · exact Or.inl (hbehind Z hYZ hZ)
  by_cases hne : Q = []
  · subst hne
    exact Or.inl (hbehind [] (by simpa using hM.symm) (by simpa using hGV.symm))
  -- the block begins in the lines taken out: it ends with them
  have hG' : chars M = chars Y ++ chars G := by
    have htext : chars M ++ chars (N' ++ (B₁ ++ B₂)) = chars Y ++ (chars G ++ chars V) := by
      rw [← chars_append, hY, chars_append, chars_append]
    by_cases hYe : Y = []
    · subst hYe
      rw [htext, chars_nil, List.nil_append, hG] at htake
      obtain ⟨hGM, -⟩ := Prod.mk.inj (Option.some.inj htake)
      exact hGM.symm
    · rw [chars_append, atStart_append (by simpa using hYe)] at hYstart
      rw [htext] at htake
      refine (wholeBlock_suffix htake hG hYstart ?_).1
      have hpos : 0 < Q.length := List.length_pos_iff.mpr hne
      simp only [chars, List.length_map, hM, List.length_append]
      omega
  have hlength : G.length = Q.length := by
    have hlen := congrArg List.length hG'
    simp only [chars, List.length_append, List.length_map, hM] at hlen
    omega
  obtain ⟨rfl, -⟩ := List.append_inj hGV hlength
  exact Or.inr fun x hx => by
    have hnot := not_mem_of_nodup hnodup (x := x) (by rw [hM]; exact List.mem_append_right Y hx)
    rwa [← List.append_assoc] at hnot

theorem gone (h : BlocksAhead T O []) {U G V : List (Char × β)} (hT : T = U ++ G ++ V) (hstart : AtStart (chars U))
    (htake : wholeBlock (chars G ++ chars V) = some (chars G, chars V)) : ∀ x ∈ G, x ∉ O := by
  rcases h U G V hT hstart htake with ⟨Y, hY, -⟩ | hgone
  · obtain ⟨-, hGV⟩ := List.append_eq_nil_iff.mp hY.symm
    obtain ⟨rfl, -⟩ := List.append_eq_nil_iff.mp hGV
    exact absurd rfl (takes_wholeBlock htake).2
  · simpa using hgone

end BlocksAhead

/-- Whole blocks are cut by the first pass. -/
theorem exists_wellFormed {hard : β → Prop} {T : List (Char × β)}
    (hhard : Each wholeBlock (fun S => ∀ x ∈ S, hard x.2) T) (hT : T.Nodup) :
    ∃ X, chars X = stripAndHealSeams (chars T) .wellFormed ∧ Kept hard T X ∧ BlocksAhead T X [] := by
  obtain ⟨X, hX, hkept, -, hblocks, -⟩ := stripFrom_run
    (I := fun O R => Kept hard T (O ++ R) ∧ ScannedOpen O R ∧ BlocksAhead T O R ∧
      ∀ U S V, R = U ++ S ++ V → AtStart (chars (O ++ U)) →
        wholeBlock (chars S ++ chars V) = some (chars S, chars V) → ∀ x ∈ S, hard x.2)
    wholeLines_wellFormed (O := []) (R := T) (by
      rintro O x R ⟨hkept, hscanned, hblocks, hahead⟩ hnone
      refine ⟨by simpa using hkept, hscanned.skip hnone, hblocks.skip hnone, ?_⟩
      rintro U S V rfl hstart
      exact hahead (x :: U) S V rfl (by simpa using hstart)) (by
      rintro A N M N' B₁ B₂ ⟨hkept, hscanned, hblocks, hahead⟩ hcut hB₁ htake
      have hclosed := hscanned.not_open hcut htake
      obtain ⟨start, body, stop, hM, -, hbody⟩ := wholeBlock_eq_some_iff.mp htake
      refine ⟨?_, hscanned.cut hcut hB₁ hclosed, hblocks.cut hcut hB₁ (hT.sublist hkept.cut.sublist) htake, ?_⟩
      · rw [List.append_assoc]
        refine hkept.step hcut (by rw [hM]; exact hbody.marker.closing.endsComment _) ?_ hclosed
        exact hahead [] M (N' ++ (B₁ ++ B₂)) (by simp) (by simpa using hcut.start_lines) htake
      · rintro U S V rfl hstart htake'
        refine hahead (M ++ N' ++ B₁ ++ U) S V (by simp) ?_ htake'
        have hcut' : CutAt A N M N' ((B₁ ++ U) ++ (S ++ V)) := by simpa using hcut
        -- a block ahead begins in a line, so the cut did not bring its start about
        have hhead : ∃ x B, S ++ V = x :: B ∧ lineTerminator x.1 = false := by
          have hfalse := wholeLines_wellFormed.head htake'
          rw [← chars_append] at hfalse
          cases hSV : S ++ V with
          | nil =>
            rw [hSV] at hfalse
            cases hfalse
          | cons x B =>
            rw [hSV] at hfalse
            exact ⟨x, B, rfl, hfalse⟩
        have hstart' := hcut'.atStart (by simpa using hstart) hhead
        simpa using hstart')
    ⟨.refl T, by rintro U S heq hS -; simp_all,
      fun U G V h hstart _ => Or.inl ⟨U, by simpa using h, by simpa using hstart⟩,
      fun U S V h hstart => hhard U S V h (by simpa using hstart)⟩
    (fun _ => Or.inl rfl) (fun _ => Or.inl rfl)
  rw [List.append_nil] at hkept
  exact ⟨X, hX, hkept, hblocks⟩

end CodeGraph.Plugin.Adopt
