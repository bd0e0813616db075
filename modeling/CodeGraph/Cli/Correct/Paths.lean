import CodeGraph.Cli.Paths
import CodeGraph.Indexer.Correct.PathKey
import CodeGraph.Lib.Segments

/-!
# What key a path from the user gets

Read as segments, a path is collapsed by dropping dots and cancelling names, and both checks follow the same arrive:
`collapse_within_root` fails and `is_safe_relative_path` refuses just when a path is absolute or climbs above its
beginning (`collapseWithinRoot_eq_none_iff`, `isSafeRelativePath_iff`). Below the root a key is the collapse of the
path that was meant; at the root it is only checked, so it is the path as it was typed.
-/

namespace CodeGraph.Cli.Paths

open CodeGraph.Lib CodeGraph.Indexer.PathKey

variable {path raw key part offset cwd projectRoot : List Char} {present : List Char → Bool} {back : Bool}
  {stack way : List (List Char)} {ps : List (List Char)}

/-! ### Paths as segments -/

def segment (part : List Char) : Segment (List Char) :=
  if part = ['.'] then .here else if part = ['.', '.'] then .up else .name part

def segments (path : List Char) : List (Segment (List Char)) := (parts path).map segment

/-- The path is absolute, or goes above its beginning at some point. -/
def Leaves (path : List Char) : Prop := isAbsolute path = true ∨ Climbs (segments path)

/-- The path without its dots and with every `..` cancelled against the name before it. -/
def IsCollapse (path key : List Char) : Prop :=
  ∃ way, Collapses (segments path) way ∧ key = List.intercalate ['/'] way

/-- No part of the key is empty, a dot or two dots. -/
def Plain (key : List Char) : Prop :=
  key = [] ∨ ∀ part ∈ key.splitOn '/', part ≠ [] ∧ part ≠ ['.'] ∧ part ≠ ['.', '.']

/-- The components of the parts of a path, without what the path begins with. -/
def body (ps : List (List Char)) : List Component :=
  (ps.filter fun part => part != ['.']).map fun part => if part = ['.', '.'] then .parentDir else .normal part

theorem collapseFrom_body (ps stack : List (List Char)) :
    collapseFrom stack (body ps) = arrive (ps.map segment) stack := by
  induction ps generalizing stack with
  | nil => rfl
  | cons part ps ih =>
    unfold body at ih ⊢
    rw [List.map_cons, segment]
    by_cases hdot : part = ['.']
    · rw [if_pos hdot, List.filter_cons_of_neg (by simp [hdot]), ih, arrive]
    · rw [if_neg hdot, List.filter_cons_of_pos (by simp [hdot]), List.map_cons]
      by_cases hdots : part = ['.', '.']
      · rw [if_pos hdots, if_pos hdots]
        cases stack with
        | nil => rfl
        | cons name stack => exact ih stack
      · rw [if_neg hdots, if_neg hdots, collapseFrom, arrive, ih]

theorem safeFrom_body (ps stack : List (List Char)) :
    safeFrom stack.length (body ps) = (arrive (ps.map segment) stack).isSome := by
  induction ps generalizing stack with
  | nil => rfl
  | cons part ps ih =>
    unfold body at ih ⊢
    rw [List.map_cons, segment]
    by_cases hdot : part = ['.']
    · rw [if_pos hdot, List.filter_cons_of_neg (by simp [hdot]), ih, arrive]
    · rw [if_neg hdot, List.filter_cons_of_pos (by simp [hdot]), List.map_cons]
      by_cases hdots : part = ['.', '.']
      · rw [if_pos hdots, if_pos hdots, safeFrom]
        cases stack with
        | nil => rfl
        | cons name stack =>
          have hdepth : ((name :: stack).length : ℤ) - 1 = stack.length := by
            rw [List.length_cons]
            omega
          rw [hdepth, if_neg (by omega), arrive, ih]
      · rw [if_neg hdots, if_neg hdots, safeFrom, arrive, ← ih, List.length_cons]
        rfl

theorem components_of_relative (h : isAbsolute path = false) :
    components path = body (parts path) ∨ components path = .curDir :: body (parts path) := by
  unfold components
  rw [if_neg (by rw [h]; exact Bool.false_ne_true)]
  split_ifs with hdot
  · exact .inr rfl
  · exact .inl rfl

theorem components_of_absolute (h : isAbsolute path = true) : components path = .rootDir :: body (parts path) := by
  unfold components
  rw [if_pos h]
  rfl

/-- Collapsing is following the path. -/
theorem collapseWithinRoot_of_relative (h : isAbsolute path = false) :
    collapseWithinRoot path = (arrive (segments path) []).map fun way => List.intercalate ['/'] way.reverse := by
  unfold collapseWithinRoot segments
  rw [← collapseFrom_body]
  rcases components_of_relative h with heq | heq
  · rw [heq]
  · rw [heq, collapseFrom]

theorem collapseWithinRoot_of_absolute (h : isAbsolute path = true) : collapseWithinRoot path = none := by
  unfold collapseWithinRoot
  rw [components_of_absolute h]
  rfl

theorem collapseWithinRoot_eq_none_iff : collapseWithinRoot path = none ↔ Leaves path := by
  unfold Leaves
  cases h : isAbsolute path with
  | true => simp [collapseWithinRoot_of_absolute h]
  | false => simp [collapseWithinRoot_of_relative h, climbs_iff]

theorem isSafeRelativePath_iff : isSafeRelativePath path = true ↔ ¬Leaves path := by
  unfold Leaves isSafeRelativePath
  cases h : isAbsolute path with
  | true => simp [components_of_absolute h, safeFrom]
  | false =>
    have hsafe : safeFrom 0 (components path) = (arrive (segments path) []).isSome := by
      have hbody := safeFrom_body (parts path) []
      rcases components_of_relative h with heq | heq
      · rw [heq]
        exact hbody
      · rw [heq, safeFrom]
        exact hbody
    rw [hsafe, climbs_iff]
    simp [Option.isSome_iff_ne_none]

theorem isCollapse_of_collapseWithinRoot (h : collapseWithinRoot path = some key) : IsCollapse path key := by
  cases habs : isAbsolute path with
  | true =>
    rw [collapseWithinRoot_of_absolute habs] at h
    cases h
  | false =>
    rw [collapseWithinRoot_of_relative habs, Option.map_eq_some_iff] at h
    obtain ⟨way, hway, rfl⟩ := h
    refine ⟨way.reverse, ?_, rfl⟩
    rw [collapses_iff, List.reverse_reverse, hway]

/-- A path has one collapse. -/
theorem IsCollapse.unique {key' : List Char} (h : IsCollapse path key) (h' : IsCollapse path key') : key = key' := by
  obtain ⟨way, hway, rfl⟩ := h
  obtain ⟨way', hway', rfl⟩ := h'
  rw [hway.unique hway']

/-! ### Plain keys -/

theorem segment_eq_name {name : List Char} (h : segment part = .name name) :
    part = name ∧ part ≠ ['.'] ∧ part ≠ ['.', '.'] := by
  unfold segment at h
  split_ifs at h with hdot hdots
  obtain rfl := Segment.name.inj h
  exact ⟨rfl, hdot, hdots⟩

/-- The collapse of a path is plain. -/
theorem IsCollapse.plain (h : IsCollapse path key) : Plain key := by
  obtain ⟨way, hway, rfl⟩ := h
  have hname : ∀ name ∈ way, name ∈ parts path ∧ name ≠ ['.'] ∧ name ≠ ['.', '.'] := by
    intro name hmem
    obtain ⟨part, hpart, heq⟩ := List.mem_map.mp (hway.name_mem hmem)
    obtain ⟨rfl, hdot, hdots⟩ := segment_eq_name heq
    exact ⟨hpart, hdot, hdots⟩
  cases way with
  | nil => exact .inl rfl
  | cons name way =>
    refine .inr ?_
    have hsep : ∀ part ∈ name :: way, '/' ∉ part := by
      intro part hpart hslash
      have hfalse := sep_eq_false_of_mem_words (hname part hpart).1 hslash
      cases hfalse
    rw [List.splitOn_intercalate '/' hsep (List.cons_ne_nil _ _)]
    intro part hpart
    obtain ⟨hmem, hdots⟩ := hname part hpart
    exact ⟨ne_nil_of_mem_words hmem, hdots⟩

/-- A plain key is its own collapse. -/
theorem Plain.isCollapse (h : Plain key) : IsCollapse key key := by
  rcases h with rfl | h
  · exact ⟨[], .names [], rfl⟩
  · have hparts : parts key = key.splitOn '/' := by
      unfold parts words
      exact List.filter_eq_self.mpr fun part hpart => by simpa using (h part hpart).1
    have hsegments : segments key = (key.splitOn '/').map .name := by
      unfold segments
      rw [hparts]
      refine List.map_congr_left fun part hpart => ?_
      obtain ⟨-, hdot, hdots⟩ := h part hpart
      rw [segment, if_neg hdot, if_neg hdots]
    refine ⟨key.splitOn '/', ?_, (List.intercalate_splitOn '/').symm⟩
    rw [hsegments]
    exact .names _

/-! ### At the root -/

/-- The path without the dot that it may begin with. -/
def undot (path : List Char) : List Char :=
  if path = ['.'] then [] else if ['.', '/'] <+: path then path.drop 2 else path

theorem segments_undot (path : List Char) :
    segments path = segments (undot path) ∨ segments path = .here :: segments (undot path) := by
  have hdot : words (· == '/') ['.'] = [['.']] := words_eq_singleton (List.cons_ne_nil _ _) (by simp)
  unfold undot
  split_ifs with hone hprefix
  · subst hone
    refine .inr ?_
    unfold segments parts
    rw [hdot, words_nil]
    rfl
  · obtain ⟨rest, rfl⟩ := hprefix
    refine .inr ?_
    show segments (['.'] ++ '/' :: rest) = .here :: segments rest
    unfold segments parts
    rw [words_append_sep rfl, hdot]
    rfl
  · exact .inl rfl

theorem arrive_undot (path : List Char) (way : List (List Char)) :
    arrive (segments path) way = arrive (segments (undot path)) way := by
  rcases segments_undot path with h | h
  · rw [h]
  · rw [h, arrive]

/-- Behind a dot and a separator no second separator is left. -/
theorem not_isAbsolute_drop (raw : List Char) (back : Bool) (h : ['.', '/'] <+: normalizeRelStrOn raw back) :
    isAbsolute ((normalizeRelStrOn raw back).drop 2) = false := by
  obtain ⟨rest, hrest⟩ := h
  have hkey : normalizeRelStrOn raw back = squeeze (· == '/') (unify back raw) := by
    refine normalizeRelStrOn_eq_squeeze ?_
    intro hroot
    obtain ⟨v, hv⟩ := hroot
    rw [normalizeRelStrOn_root hv.symm] at hrest
    cases hrest
  have hchain : (normalizeRelStrOn raw back).IsChain Slashes := by
    rw [hkey]
    exact squeeze_isChain
  rw [← hrest] at hchain ⊢
  show isAbsolute rest = false
  cases rest with
  | nil => rfl
  | cons c rest =>
    have hapart : Slashes '/' c := (List.isChain_cons_cons.mp (List.isChain_cons_cons.mp hchain).2).1
    rw [isAbsolute, List.head?_cons, beq_eq_false_iff_ne]
    rintro ⟨⟩
    exact hapart ⟨rfl, rfl⟩

theorem leaves_undot (habs : ['.', '/'] <+: path → isAbsolute (path.drop 2) = false) :
    Leaves (undot path) ↔ Leaves path := by
  have hclimbs : Climbs (segments (undot path)) ↔ Climbs (segments path) := by
    rw [climbs_iff, climbs_iff, arrive_undot path]
  have habsolute : isAbsolute (undot path) = isAbsolute path := by
    unfold undot
    split_ifs with hone hprefix
    · rw [hone]
      rfl
    · rw [habs hprefix]
      obtain ⟨rest, rfl⟩ := hprefix
      rfl
    · rfl
  rw [Leaves, Leaves, hclimbs, habsolute]

/-- The key is the path behind its dot, or the path is refused. -/
theorem relativeKey_root (present : List Char → Bool) (projectRoot typed : List Char)
    (habs : ['.', '/'] <+: path → isAbsolute (path.drop 2) = false) :
    (Leaves path → relativeKey present projectRoot [] typed path = .error (escapes typed projectRoot)) ∧
      (¬Leaves path → relativeKey present projectRoot [] typed path = .ok (undot path)) := by
  have hsafe : isSafeRelativePath (undot path) = true ↔ ¬Leaves path := by
    rw [isSafeRelativePath_iff, leaves_undot habs]
  have hkey : relativeKey present projectRoot [] typed path =
      if isSafeRelativePath (undot path) then .ok (undot path) else .error (escapes typed projectRoot) := by
    unfold relativeKey undot
    rw [if_pos (show ([] : List Char).isEmpty = true from rfl)]
    by_cases hone : path = ['.']
    · subst hone
      rfl
    · rw [if_neg hone, if_neg hone]
      by_cases hprefix : ['.', '/'] <+: path
      · rw [if_pos hprefix, if_pos hprefix]
      · rw [if_neg hprefix, if_neg hprefix]
  rw [hkey]
  constructor
  · intro hleaves
    exact if_neg fun h => hsafe.mp h hleaves
  · intro hleaves
    exact if_pos (hsafe.mpr hleaves)

/-! ### Below the root -/

/-- The path was meant from the root: it does not say that it begins where the user is, nothing is there, and something
is at the root. -/
def Rebased (present : List Char → Bool) (projectRoot offset path : List Char) : Prop :=
  isCwdAnchored path = false ∧ (∀ key, IsCollapse (join offset path) key → present (join projectRoot key) = false) ∧
    ¬Leaves path ∧ present (join projectRoot path) = true

/-- The path that is meant. -/
def Meant (present : List Char → Bool) (projectRoot offset path meant : List Char) : Prop :=
  Rebased present projectRoot offset path ∧ meant = path ∨
    ¬Rebased present projectRoot offset path ∧ meant = join offset path

theorem relativeKey_below (present : List Char → Bool) (projectRoot typed path : List Char) (hoffset : offset ≠ []) :
    (Leaves (join offset path) → relativeKey present projectRoot offset typed path =
        .error (escapes typed projectRoot)) ∧
      (¬Leaves (join offset path) → ∃ key, relativeKey present projectRoot offset typed path = .ok key ∧
        ∀ meant, Meant present projectRoot offset path meant → IsCollapse meant key) := by
  have hnil : ¬offset.isEmpty = true := fun h => hoffset (List.isEmpty_iff.mp h)
  unfold relativeKey
  rw [if_neg hnil]
  cases hcollapse : collapseWithinRoot (join offset path) with
  | none =>
    have hleaves := collapseWithinRoot_eq_none_iff.mp hcollapse
    exact ⟨fun _ => rfl, fun h => absurd hleaves h⟩
  | some subdirRel =>
    have hstays : ¬Leaves (join offset path) := by
      intro hleaves
      rw [collapseWithinRoot_eq_none_iff.mpr hleaves] at hcollapse
      cases hcollapse
    have hjoined : IsCollapse (join offset path) subdirRel := isCollapse_of_collapseWithinRoot hcollapse
    refine ⟨fun h => absurd h hstays, fun _ => ?_⟩
    dsimp only
    -- the test of the code is the rebasing that the path means
    have hrebased : (!isCwdAnchored path && !present (join projectRoot subdirRel) && isSafeRelativePath path &&
        present (join projectRoot path)) = true ↔ Rebased present projectRoot offset path := by
      rw [Bool.and_eq_true, Bool.and_eq_true, Bool.and_eq_true, Bool.not_eq_true', Bool.not_eq_true',
        isSafeRelativePath_iff, and_assoc, and_assoc]
      refine and_congr_right fun _ => and_congr_left fun _ => ?_
      exact ⟨fun habsent key hkey => hjoined.unique hkey ▸ habsent, fun h => h subdirRel hjoined⟩
    by_cases h : Rebased present projectRoot offset path
    · rw [if_pos (hrebased.mpr h)]
      obtain ⟨key, hkey⟩ : ∃ key, collapseWithinRoot path = some key := by
        refine Option.ne_none_iff_exists'.mp fun hnone => ?_
        exact h.2.2.1 (collapseWithinRoot_eq_none_iff.mp hnone)
      refine ⟨key, by rw [hkey], ?_⟩
      rintro meant (⟨-, rfl⟩ | ⟨hnot, -⟩)
      · exact isCollapse_of_collapseWithinRoot hkey
      · exact absurd h hnot
    · rw [if_neg fun hcond => h (hrebased.mp hcond)]
      refine ⟨subdirRel, rfl, ?_⟩
      rintro meant (⟨hyes, -⟩ | ⟨-, rfl⟩)
      · exact absurd hyes h
      · exact hjoined

/-! ### Contained keys -/

/-- A path is refused just when it leaves the root, and the key is the collapse of the path that is meant. -/
structure Contained (present : List Char → Bool) (projectRoot offset path : List Char)
    (answer : Except (List Char) (List Char)) : Prop where
  refused : (∃ e, answer = .error e) ↔ Leaves (join offset path)
  collapse : ∀ key meant, answer = .ok key → Meant present projectRoot offset path meant → IsCollapse meant key
  plain : ∀ key, answer = .ok key → Plain key

variable {absolute : List Char → Except (List Char) (List Char)}

theorem normalizeUserPathKey_eq (hcwd : stripPrefix cwd projectRoot = some offset) (hrelative : isAbsolute raw = false)
    (hwindows : needsLexicalWindowsRejection raw false = false) :
    normalizeUserPathKey absolute present projectRoot cwd raw back =
      relativeKey present projectRoot offset raw (normalizeRelStrOn raw back) := by
  unfold normalizeUserPathKey
  rw [hrelative, hwindows, hcwd]
  rfl

theorem join_nil (path : List Char) : join [] path = path := by
  unfold join
  split_ifs with h hempty
  · rfl
  · rfl
  · exact absurd rfl hempty

/-- An answer that is an error just in one case is refused just then. -/
theorem refused_iff {answer : Except (List Char) (List Char)} {p : Prop} {e key : List Char}
    (herror : p → answer = .error e) (hok : ¬p → answer = .ok key) : (∃ e, answer = .error e) ↔ p := by
  constructor
  · rintro ⟨e', he'⟩
    by_contra hp
    rw [hok hp] at he'
    cases he'
  · exact fun hp => ⟨e, herror hp⟩

theorem contained_below (hcwd : stripPrefix cwd projectRoot = some offset) (hrelative : isAbsolute raw = false)
    (hwindows : needsLexicalWindowsRejection raw false = false) (hoffset : offset ≠ []) :
    Contained present projectRoot offset (normalizeRelStrOn raw back)
      (normalizeUserPathKey absolute present projectRoot cwd raw back) := by
  rw [normalizeUserPathKey_eq hcwd hrelative hwindows]
  obtain ⟨herror, hok⟩ := relativeKey_below present projectRoot raw (normalizeRelStrOn raw back) hoffset
  by_cases hleaves : Leaves (join offset (normalizeRelStrOn raw back))
  · rw [herror hleaves]
    exact ⟨iff_of_true ⟨_, rfl⟩ hleaves, nofun, nofun⟩
  · obtain ⟨key, hkey, hcollapse⟩ := hok hleaves
    rw [hkey]
    refine ⟨iff_of_false (fun ⟨e, he⟩ => nomatch he) hleaves, ?_, ?_⟩
    · rintro _ meant ⟨⟩ hmeant
      exact hcollapse meant hmeant
    · rintro _ ⟨⟩
      by_cases h : Rebased present projectRoot offset (normalizeRelStrOn raw back)
      · exact (hcollapse _ (.inl ⟨h, rfl⟩)).plain
      · exact (hcollapse _ (.inr ⟨h, rfl⟩)).plain

/-- A path is refused just when it leaves the root. Below the root a key is contained, and does not tell where and how
the file was spelled. At the root it is the path as it was typed, behind the dot that it may begin with: it names the
same file, and is the collapse of the path where it is plain. -/
theorem normalizeUserPathKey_contained (absolute : List Char → Except (List Char) (List Char))
    (present : List Char → Bool) (projectRoot cwd offset raw : List Char) (back : Bool)
    (hcwd : stripPrefix cwd projectRoot = some offset) (hrelative : isAbsolute raw = false)
    (hwindows : needsLexicalWindowsRejection raw false = false) :
    ((∃ e, normalizeUserPathKey absolute present projectRoot cwd raw back = .error e) ↔
      Leaves (join offset (normalizeRelStrOn raw back))) ∧
    (offset ≠ [] → Contained present projectRoot offset (normalizeRelStrOn raw back)
      (normalizeUserPathKey absolute present projectRoot cwd raw back)) ∧
    (offset ≠ [] → ∀ cwd' offset' raw' back', stripPrefix cwd' projectRoot = some offset' → offset' ≠ [] →
      isAbsolute raw' = false → needsLexicalWindowsRejection raw' false = false →
      ∀ key key' meant meant' way, normalizeUserPathKey absolute present projectRoot cwd raw back = .ok key →
        normalizeUserPathKey absolute present projectRoot cwd' raw' back' = .ok key' →
        Meant present projectRoot offset (normalizeRelStrOn raw back) meant →
        Meant present projectRoot offset' (normalizeRelStrOn raw' back') meant' →
        Collapses (segments meant) way → Collapses (segments meant') way → key = key') ∧
    (offset = [] → ∀ key, normalizeUserPathKey absolute present projectRoot cwd raw back = .ok key →
      key = undot (normalizeRelStrOn raw back) ∧
      (∀ way, Collapses (segments key) way ↔ Collapses (segments (normalizeRelStrOn raw back)) way) ∧
      (Plain key → IsCollapse (normalizeRelStrOn raw back) key)) := by
  have hroot := relativeKey_root present projectRoot raw (not_isAbsolute_drop raw back)
  refine ⟨?_, contained_below hcwd hrelative hwindows, ?_, ?_⟩
  · -- the key is refused just where the joined path leaves the root
    by_cases hoffset : offset = []
    · subst hoffset
      rw [normalizeUserPathKey_eq hcwd hrelative hwindows, join_nil]
      exact refused_iff hroot.1 hroot.2
    · exact (contained_below hcwd hrelative hwindows hoffset).refused
  · -- both keys are names of one collapse, and a collapse has one
    intro hoffset cwd' offset' raw' back' hcwd' hoffset' hrelative' hwindows' key key' meant meant' way hkey hkey'
      hmeant hmeant' hway hway'
    obtain ⟨names, hnames, rfl⟩ :=
      (contained_below hcwd hrelative hwindows hoffset).collapse key meant hkey hmeant
    obtain ⟨names', hnames', rfl⟩ :=
      (contained_below hcwd' hrelative' hwindows' hoffset').collapse key' meant' hkey' hmeant'
    rw [hnames.unique hway, hnames'.unique hway']
  · -- at the root nothing is joined, and the key is the path itself without its dots
    rintro rfl key hkey
    rw [normalizeUserPathKey_eq hcwd hrelative hwindows] at hkey
    have hundot : key = undot (normalizeRelStrOn raw back) := by
      by_cases hleaves : Leaves (normalizeRelStrOn raw back)
      · rw [hroot.1 hleaves] at hkey
        cases hkey
      · rw [hroot.2 hleaves] at hkey
        exact (Except.ok.inj hkey).symm
    have hsame : ∀ way, Collapses (segments key) way ↔ Collapses (segments (normalizeRelStrOn raw back)) way := by
      intro way
      rw [collapses_iff, collapses_iff, hundot, ← arrive_undot]
    refine ⟨hundot, hsame, fun hplain => ?_⟩
    obtain ⟨way, hway, hname⟩ := hplain.isCollapse
    exact ⟨way, (hsame way).mp hway, hname⟩

/-- `../lib.rs`, typed in `src`. -/
theorem normalizeUserPathKey_contained_below :
    Contained (fun _ => true) ['/', 'r'] ['s', 'r', 'c']
      (normalizeRelStrOn ['.', '.', '/', 'l', 'i', 'b', '.', 'r', 's'] false)
      (normalizeUserPathKey .error (fun _ => true) ['/', 'r'] ['/', 'r', '/', 's', 'r', 'c']
        ['.', '.', '/', 'l', 'i', 'b', '.', 'r', 's'] false) :=
  (normalizeUserPathKey_contained .error (fun _ => true) ['/', 'r'] ['/', 'r', '/', 's', 'r', 'c'] ['s', 'r', 'c']
    ['.', '.', '/', 'l', 'i', 'b', '.', 'r', 's'] false (by decide) (by decide) (by decide)).2.1 (by decide)

/-- At the root `a/../b` keeps its dots. -/
theorem normalizeUserPathKey_not_contained :
    ¬∀ absolute present projectRoot cwd offset raw back, stripPrefix cwd projectRoot = some offset →
      isAbsolute raw = false → needsLexicalWindowsRejection raw false = false →
      Contained present projectRoot offset (normalizeRelStrOn raw back)
        (normalizeUserPathKey absolute present projectRoot cwd raw back) := by
  intro h
  have hkey : normalizeUserPathKey .error (fun _ => true) ['/', 'r'] ['/', 'r'] ['a', '/', '.', '.', '/', 'b'] false =
      .ok ['a', '/', '.', '.', '/', 'b'] := by rfl
  have hplain := (h .error (fun _ => true) ['/', 'r'] ['/', 'r'] [] ['a', '/', '.', '.', '/', 'b'] false (by decide)
    (by decide) (by decide)).plain _ hkey
  rcases hplain with hnil | hparts
  · cases hnil
  · exact (hparts ['.', '.'] (by decide)).2.2 rfl

end CodeGraph.Cli.Paths
