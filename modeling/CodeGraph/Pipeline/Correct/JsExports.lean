import CodeGraph.Lib.Forward
import CodeGraph.Pipeline.JsExports
import Mathlib.Data.Set.Card

/-!
# The re-export walk

`jsNode` is the forwarding graph on pairs of a file and a name. A walk over consistent caches is a search of
that graph (`walked_walk`), whatever the caches already hold, so what `Lib.Forward` proves of a search holds of
`JsExports::walk`: within the depth bound the answer is decided by the set of resolutions that can be reached.
-/

namespace CodeGraph.Pipeline

open CodeGraph.Lib

/-! ### The forwarding graph -/

/-- Where a walk can end with something found. -/
inductive JsTarget
  | binding (file loc : String)
  | namespaceOf (file : String)
  deriving DecidableEq

def JsTarget.resolution : JsTarget → JsResolution
  | .binding file loc => .binding file loc
  | .namespaceOf file => .namespaceOf file

/-- A verdict in the walk's words. -/
def ofVerdict : Verdict JsTarget → JsResolution
  | .missing => .missing
  | .one t => t.resolution
  | .many => .ambiguous
  | .unknown => .unknown

theorem JsTarget.resolution_inj {t t' : JsTarget} : t.resolution = t'.resolution ↔ t = t' := by
  cases t <;> cases t' <;> simp [resolution]

variable (conn : Conn) (paths : Finset String)

/-- What a pair of a file and a name holds or forwards to. -/
def jsNode (p : String × String) : Forward (String × String) JsTarget :=
  match (FileExports.load conn p.1).localOf p.2 with
  | some loc => .stop (.binding p.1 loc)
  | none =>
    match (FileExports.load conn p.1).indirectOf p.2 with
    | some (spec, imported) =>
      match resolveJsSpecifierPath spec p.1 paths with
      | none => .broken
      | some next =>
        match imported with
        | none => .stop (.namespaceOf next)
        | some imported => .next [(next, imported)]
    | none =>
      if p.2 = "default" then .next []
      else .next (((FileExports.load conn p.1).starSources p.1 paths).map (·, p.2))

/-- A search of the forwarding graph from a pair. -/
def jsSearch (p : String × String) : Verdict JsTarget × Finset (String × String) :=
  search (jsNode conn paths) (maxJsReexportDepth + 1) p ∅

/-! ### Caches -/

/-- What the caches hold is what a walk without them would compute. -/
structure Consistent (ex : JsExports) : Prop where
  byFile : ∀ f x, ex.byFile.lookup f = some x → x = FileExports.load conn f
  stars : ∀ f s, ex.stars.lookup f = some s → s = (FileExports.load conn f).starSources f paths
  memo : ∀ p r, ex.memo.lookup p = some r → r = ofVerdict (jsSearch conn paths p).1

variable {conn paths} {ex : JsExports} {file name : String}

theorem consistent_empty : Consistent conn paths {} where
  byFile f x h := by cases h
  stars f s h := by cases h
  memo p r h := by cases h

theorem Consistent.load (h : Consistent conn paths ex) (file : String) :
    Consistent conn paths (ex.load conn file) := by
  unfold JsExports.load
  split_ifs with hmem
  · exact h
  · refine { h with byFile := fun f x hx => ?_ }
    by_cases hf : f = file
    · subst hf
      rw [AList.lookup_insert] at hx
      exact (Option.some_inj.mp hx).symm
    · rw [AList.lookup_insert_ne hf] at hx
      exact h.byFile f x hx

theorem JsExports.mem_load {f : String} : f ∈ (ex.load conn file).byFile ↔ f = file ∨ f ∈ ex.byFile := by
  unfold JsExports.load
  split_ifs with hmem
  · constructor
    · exact .inr
    · rintro (rfl | h)
      · exact hmem
      · exact h
  · exact AList.mem_insert _

/-- A loaded file is read from the cache as from the index. -/
theorem Consistent.here_eq (h : Consistent conn paths ex) (hf : file ∈ ex.byFile) :
    ex.here file = FileExports.load conn file := by
  obtain ⟨x, hx⟩ := Option.isSome_iff_exists.mp (AList.lookup_isSome.mpr hf)
  rw [JsExports.here, hx, Option.getD_some]
  exact h.byFile file x hx

theorem Consistent.starsOf (h : Consistent conn paths ex) (hf : file ∈ ex.byFile) :
    (ex.starsOf paths file).1 = (FileExports.load conn file).starSources file paths ∧
      Consistent conn paths (ex.starsOf paths file).2 := by
  unfold JsExports.starsOf
  cases hs : ex.stars.lookup file with
  | some s => exact ⟨h.stars file s hs, h⟩
  | none =>
    have hhere : (ex.here file).starSources file paths =
        (FileExports.load conn file).starSources file paths := by rw [h.here_eq hf]
    refine ⟨hhere, { h with stars := fun f s hfs => ?_ }⟩
    by_cases hff : f = file
    · subst hff
      rw [AList.lookup_insert, hhere] at hfs
      exact (Option.some_inj.mp hfs).symm
    · rw [AList.lookup_insert_ne hff] at hfs
      exact h.stars f s hfs

@[simp] theorem JsExports.starsOf_byFile : (ex.starsOf paths file).2.byFile = ex.byFile := by
  unfold JsExports.starsOf
  split <;> rfl

/-! ### The walk is a search -/

variable (conn paths) in
/-- A walk from `w` came to `res`, as a search to `v`. -/
structure Walked (w : WalkState) (v : Verdict JsTarget × Finset (String × String))
    (res : JsResolution × WalkState) : Prop where
  answer : res.1 = ofVerdict v.1
  seen : res.2.seen = v.2
  consistent : Consistent conn paths res.2.exports
  /-- What was loaded stays loaded. -/
  grows : ∀ f ∈ w.exports.byFile, f ∈ res.2.exports.byFile
  /-- The files of the pairs it asked are loaded. -/
  loaded : ∀ p ∈ res.2.seen, p ∉ w.seen → p.1 ∈ res.2.exports.byFile

/-- A walk that comes back at once. -/
theorem Walked.stay {w : WalkState} (h : Consistent conn paths w.exports) {v : Verdict JsTarget} :
    Walked conn paths w (v, w.seen) (ofVerdict v, w) where
  answer := rfl
  seen := rfl
  consistent := h
  grows _ hf := hf
  loaded _ hp hn := absurd hp hn

theorem Walked.trans {w w' : WalkState} {v v' : Verdict JsTarget × Finset (String × String)}
    {r : JsResolution} {res : JsResolution × WalkState} (h : Walked conn paths w v (r, w'))
    (h' : Walked conn paths w' v' res) : Walked conn paths w v' res where
  answer := h'.answer
  seen := h'.seen
  consistent := h'.consistent
  grows f hf := h'.grows f (h.grows f hf)
  loaded p hp hn := by
    by_cases hw : p ∈ w'.seen
    · exact h'.grows p.1 (h.loaded p hw hn)
    · exact h'.loaded p hp hw

/-- The loop over the sources asks as `searchAll` does. -/
theorem walked_walkStars {ask : String → WalkState → JsResolution × WalkState}
    {askPair : String × String → Finset (String × String) → Verdict JsTarget × Finset (String × String)}
    (hask : ∀ next w, Consistent conn paths w.exports →
      Walked conn paths w (askPair (next, name) w.seen) (ask next w))
    (stars : List String) (found : Option JsTarget) {w : WalkState} (hw : Consistent conn paths w.exports) :
    Walked conn paths w (searchAll askPair (stars.map (·, name)) found w.seen)
      (JsExports.walkStars ask stars (found.map JsTarget.resolution) w) := by
  induction stars generalizing found w with
  | nil =>
    have h := Walked.stay hw (v := .ofFound found)
    cases found with
    | none => exact h
    | some t => exact h
  | cons next rest ih =>
    have hnext := hask next w hw
    rw [List.map_cons, searchAll, JsExports.walkStars]
    generalize ask next w = res at hnext ⊢
    generalize askPair (next, name) w.seen = v at hnext ⊢
    obtain ⟨r, w'⟩ := res
    obtain ⟨v, seen'⟩ := v
    obtain rfl : r = ofVerdict v := hnext.answer
    obtain rfl : w'.seen = seen' := hnext.seen
    -- the loop goes on from `w'`, with whatever has been found
    have hgo : ∀ found', Walked conn paths w (searchAll askPair (rest.map (·, name)) found' w'.seen)
        (JsExports.walkStars ask rest (found'.map JsTarget.resolution) w') :=
      fun found' => hnext.trans (ih found' hnext.consistent)
    cases v with
    | missing => exact hgo found
    | many => exact hnext
    | unknown => exact hnext
    | one t =>
      have hone : ∀ t' : JsTarget, JsTarget.resolution t' ≠ t.resolution ↔ t' ≠ t :=
        fun t' => not_congr JsTarget.resolution_inj
      cases found with
      | none =>
        cases t with
        | binding g l => exact hgo (some (.binding g l))
        | namespaceOf g => exact hgo (some (.namespaceOf g))
      | some t' =>
        have hite : Walked conn paths w
            (if t' ≠ t then (.many, w'.seen) else searchAll askPair (rest.map (·, name)) (some t') w'.seen)
            (if t'.resolution ≠ t.resolution then (.ambiguous, w')
              else JsExports.walkStars ask rest (some t'.resolution) w') := by
          by_cases ht : t' = t
          · rw [if_neg (not_not.mpr ht), if_neg (not_not.mpr (JsTarget.resolution_inj.mpr ht))]
            exact hgo (some t')
          · rw [if_pos ht, if_pos ((hone t').mpr ht)]
            exact { hnext with answer := rfl }
        cases t with
        | binding g l => exact hite
        | namespaceOf g => exact hite

/-- Over consistent caches a walk is a search of the forwarding graph. -/
theorem walked_walk (left : ℕ) (file name : String) {w : WalkState} (hw : Consistent conn paths w.exports) :
    Walked conn paths w (search (jsNode conn paths) left (file, name) w.seen)
      (JsExports.walk conn paths left file name w) := by
  induction left generalizing file name w with
  | zero => exact Walked.stay hw
  | succ left ih =>
    rw [search, JsExports.walk]
    by_cases hseen : (file, name) ∈ w.seen
    · rw [if_pos hseen, if_pos hseen]
      exact Walked.stay hw
    rw [if_neg hseen, if_neg hseen]
    dsimp only
    -- the pair is noted and its file loaded
    have hload : Consistent conn paths (w.exports.load conn file) := hw.load file
    have hmem : file ∈ (w.exports.load conn file).byFile := JsExports.mem_load.mpr (.inl rfl)
    have henter : ∀ v, Walked conn paths w (v, insert (file, name) w.seen)
        (ofVerdict v, ⟨w.exports.load conn file, insert (file, name) w.seen⟩) := by
      intro v
      refine ⟨rfl, rfl, hload, fun f hf => JsExports.mem_load.mpr (.inr hf), fun p hp hn => ?_⟩
      rw [(Finset.mem_insert.mp hp).resolve_right hn]
      exact hmem
    rw [hload.here_eq hmem, jsNode]
    cases (FileExports.load conn file).localOf name with
    | some loc => exact henter (.one (.binding file loc))
    | none =>
      cases (FileExports.load conn file).indirectOf name with
      | some e =>
        obtain ⟨spec, imported⟩ := e
        dsimp only
        cases resolveJsSpecifierPath spec file paths with
        | none => exact henter .unknown
        | some next =>
          cases imported with
          | none => exact henter (.one (.namespaceOf next))
          | some imported =>
            dsimp only
            rw [searchAll_singleton]
            exact (henter .missing).trans (ih next imported hload)
      | none =>
        dsimp only
        by_cases hd : name = "default"
        · rw [if_pos hd, if_pos hd]
          exact henter .missing
        · rw [if_neg hd, if_neg hd]
          obtain ⟨hstars, hcons⟩ := hload.starsOf hmem
          rw [hstars]
          have hasked : Walked conn paths w (.missing, insert (file, name) w.seen)
              (.missing, ⟨((w.exports.load conn file).starsOf paths file).2, insert (file, name) w.seen⟩) := by
            refine { henter .missing with consistent := hcons, grows := ?_, loaded := ?_ }
            · rw [JsExports.starsOf_byFile]
              exact (henter .missing).grows
            · rw [JsExports.starsOf_byFile]
              exact (henter .missing).loaded
          exact hasked.trans (walked_walkStars (fun next w hw => ih next name hw) _ none hcons)

theorem walk_answer (h : Consistent conn paths ex) (file name : String) :
    (JsExports.walk conn paths (maxJsReexportDepth + 1) file name ⟨ex, ∅⟩).1 =
      ofVerdict (jsSearch conn paths (file, name)).1 :=
  (walked_walk (maxJsReexportDepth + 1) file name (w := ⟨ex, ∅⟩) h).answer

/-- A lookup answers as a search does, from the memo or by a walk, and leaves the caches consistent. -/
theorem Consistent.resolve (h : Consistent conn paths ex) (file name : String) :
    (ex.resolve conn paths file name).1 = ofVerdict (jsSearch conn paths (file, name)).1 ∧
      Consistent conn paths (ex.resolve conn paths file name).2 := by
  have hwalk := walked_walk (maxJsReexportDepth + 1) file name (w := ⟨ex, ∅⟩) h
  unfold JsExports.resolve
  cases hm : ex.memo.lookup (file, name) with
  | some r => exact ⟨h.memo _ r hm, h⟩
  | none =>
    refine ⟨hwalk.answer, { hwalk.consistent with memo := fun p r hr => ?_ }⟩
    by_cases hp : p = (file, name)
    · subst hp
      rw [AList.lookup_insert] at hr
      rw [← Option.some_inj.mp hr]
      exact hwalk.answer
    · rw [AList.lookup_insert_ne hp] at hr
      exact hwalk.consistent.memo p r hr

/-- Lookups made one after the other. -/
def JsExports.lookups (conn : Conn) (paths : Finset String) (ex : JsExports) (qs : List (String × String)) :
    JsExports :=
  qs.foldl (fun ex q => (ex.resolve conn paths q.1 q.2).2) ex

theorem Consistent.lookups (h : Consistent conn paths ex) (qs : List (String × String)) :
    Consistent conn paths (ex.lookups conn paths qs) := by
  induction qs generalizing ex with
  | nil => exact h
  | cons q qs ih => exact ih (h.resolve q.1 q.2).2

/-! ### Reachable resolutions -/

variable (conn paths) in
/-- A pair is answered by the file's own binding or by a namespace that it re-exports. -/
inductive Terminal : String × String → JsResolution → Prop
  | binding {file name loc : String} (hl : (FileExports.load conn file).localOf name = some loc) :
      Terminal (file, name) (.binding file loc)
  | namespaceOf {file name spec next : String} (hl : (FileExports.load conn file).localOf name = none)
      (hi : (FileExports.load conn file).indirectOf name = some (spec, none))
      (hr : resolveJsSpecifierPath spec file paths = some next) :
      Terminal (file, name) (.namespaceOf next)

variable (conn paths) in
/-- A pair forwards to the one that its indirect entry names, else to those of its `export *` sources. -/
inductive ReExports : String × String → String × String → Prop
  | indirect {file name spec imported next : String}
      (hl : (FileExports.load conn file).localOf name = none)
      (hi : (FileExports.load conn file).indirectOf name = some (spec, some imported))
      (hr : resolveJsSpecifierPath spec file paths = some next) : ReExports (file, name) (next, imported)
  | star {file name next : String} (hl : (FileExports.load conn file).localOf name = none)
      (hi : (FileExports.load conn file).indirectOf name = none) (hd : name ≠ "default")
      (hs : next ∈ (FileExports.load conn file).starSources file paths) : ReExports (file, name) (next, name)

variable (conn paths) in
/-- A pair's indirect entry has a specifier that resolves to no file. -/
def Unresolved (p : String × String) : Prop :=
  (FileExports.load conn p.1).localOf p.2 = none ∧
    ∃ spec imported, (FileExports.load conn p.1).indirectOf p.2 = some (spec, imported) ∧
      resolveJsSpecifierPath spec p.1 paths = none

variable (conn paths) in
/-- The pairs that a pair leads to, itself among them. -/
def reachable (p : String × String) : Set (String × String) :=
  {q | Relation.ReflTransGen (ReExports conn paths) p q}

variable (conn paths) in
/-- The resolutions that a pair leads to. -/
def resolutions (p : String × String) : Set JsResolution :=
  {r | ∃ q ∈ reachable conn paths p, Terminal conn paths q r}

theorem forwards_iff_reExports {p q : String × String} :
    Forwards (jsNode conn paths) p q ↔ ReExports conn paths p q := by
  constructor
  · obtain ⟨file, name⟩ := p
    intro h
    unfold Forwards jsNode at h
    dsimp only at h
    split at h
    · cases h
    next hl =>
      split at h
      next spec imported hi =>
        split at h
        · cases h
        next next hr =>
          cases imported with
          | none => cases h
          | some imported =>
            obtain rfl : q = (next, imported) := List.mem_singleton.mp h
            exact .indirect hl hi hr
      next hi =>
        split_ifs at h with hd
        · cases h
        · obtain ⟨next, hs, rfl⟩ := List.mem_map.mp h
          exact .star hl hi hd hs
  · rintro (⟨hl, hi, hr⟩ | ⟨hl, hi, hd, hs⟩)
    · simp [Forwards, jsNode, hl, hi, hr, Forward.succs]
    · simp [Forwards, jsNode, hl, hi, hd, hs, Forward.succs]

theorem jsNode_eq_stop_iff {p : String × String} {t : JsTarget} :
    jsNode conn paths p = .stop t ↔ Terminal conn paths p t.resolution := by
  constructor
  · obtain ⟨file, name⟩ := p
    intro h
    unfold jsNode at h
    dsimp only at h
    split at h
    next loc hl =>
      cases h
      exact .binding hl
    next hl =>
      split at h
      next spec imported hi =>
        split at h
        · cases h
        next next hr =>
          cases imported with
          | none =>
            cases h
            exact .namespaceOf hl hi hr
          | some imported => cases h
      next hi => split_ifs at h
  · intro h
    cases t with
    | binding file loc =>
      obtain ⟨hl⟩ | ⟨hl, hi, hr⟩ := h
      simp [jsNode, hl]
    | namespaceOf next =>
      obtain ⟨hl⟩ | ⟨hl, hi, hr⟩ := h
      simp [jsNode, hl, hi, hr]

theorem Terminal.exists_target {p : String × String} {r : JsResolution} (h : Terminal conn paths p r) :
    ∃ t : JsTarget, r = t.resolution := by
  cases h with
  | binding hl => exact ⟨.binding _ _, rfl⟩
  | namespaceOf hl hi hr => exact ⟨.namespaceOf _, rfl⟩

theorem jsNode_eq_broken_iff {p : String × String} :
    jsNode conn paths p = .broken ↔ Unresolved conn paths p := by
  constructor
  · intro h
    unfold jsNode at h
    split at h
    · cases h
    next hl =>
      split at h
      next spec imported hi =>
        split at h
        next hr => exact ⟨hl, spec, imported, hi, hr⟩
        next => cases imported <;> cases h
      next => split_ifs at h
  · rintro ⟨hl, spec, imported, hi, hr⟩
    simp [jsNode, hl, hi, hr]

/-- Within the bound on the number of pairs a search tells whether no, one or more resolutions can be
reached. -/
theorem jsSearch_describes {p : String × String} (hsize : (reachable conn paths p).encard ≤ maxJsReexportDepth)
    (hlink : ∀ q ∈ reachable conn paths p, ¬ Unresolved conn paths q) :
    (jsSearch conn paths p).1.Describes {t | t.resolution ∈ resolutions conn paths p} := by
  have hfin : (reachable conn paths p).Finite := Set.finite_of_encard_le_coe hsize
  have hmem : ∀ q, q ∈ hfin.toFinset ↔ Relation.ReflTransGen (Forwards (jsNode conn paths)) p q := by
    intro q
    rw [Set.Finite.mem_toFinset, reachable]
    have hrel : ReExports conn paths = Forwards (jsNode conn paths) := by
      ext a b
      exact forwards_iff_reExports.symm
    rw [hrel]
    rfl
  have hcard : hfin.toFinset.card ≤ maxJsReexportDepth := by
    rw [hfin.encard_eq_coe_toFinset_card] at hsize
    exact_mod_cast hsize
  have h := search_describes hmem (fun q hq hbroken =>
    hlink q (hfin.mem_toFinset.mp hq) (jsNode_eq_broken_iff.mp hbroken)) (Nat.lt_succ_of_le hcard)
  have hends : ends (jsNode conn paths) hfin.toFinset = {t | t.resolution ∈ resolutions conn paths p} := by
    ext t
    rw [Set.Finite.coe_toFinset]
    constructor
    · rintro ⟨q, hq, ht⟩
      exact ⟨q, hq, jsNode_eq_stop_iff.mp ht⟩
    · rintro ⟨q, hq, ht⟩
      exact ⟨q, hq, jsNode_eq_stop_iff.mpr ht⟩
  rwa [hends] at h

/-- The answer for a set of resolutions: `Missing` for none, the one, `Ambiguous` for more. -/
def Answers (answer : JsResolution) (found : Set JsResolution) : Prop :=
  found = ∅ ∧ answer = .missing ∨ found = {answer} ∨ found.Nontrivial ∧ answer = .ambiguous

theorem Answers.unique {r r' : JsResolution} {found : Set JsResolution} (h : Answers r found)
    (h' : Answers r' found) : r = r' := by
  rcases h with ⟨rfl, rfl⟩ | rfl | ⟨hn, rfl⟩
  · rcases h' with ⟨-, rfl⟩ | h' | ⟨hn, -⟩
    · rfl
    · exact absurd h'.symm (Set.singleton_ne_empty r')
    · exact absurd hn Set.not_nontrivial_empty
  · rcases h' with ⟨h', -⟩ | h' | ⟨hn, -⟩
    · exact absurd h' (Set.singleton_ne_empty r)
    · exact Set.singleton_eq_singleton_iff.mp h'
    · exact absurd hn Set.not_nontrivial_singleton
  · rcases h' with ⟨rfl, -⟩ | rfl | ⟨-, rfl⟩
    · exact absurd hn Set.not_nontrivial_empty
    · exact absurd hn Set.not_nontrivial_singleton
    · rfl

/-- A verdict on the targets is the answer for their resolutions. -/
theorem answers_of_describes {v : Verdict JsTarget} {ts : Set JsTarget} (h : v.Describes ts) :
    Answers (ofVerdict v) (JsTarget.resolution '' ts) := by
  cases v with
  | missing =>
    left
    rw [show ts = ∅ from h, Set.image_empty]
    exact ⟨rfl, rfl⟩
  | one t =>
    right
    left
    rw [show ts = {t} from h, Set.image_singleton]
    rfl
  | many =>
    right
    right
    exact ⟨Set.Nontrivial.image h fun t t' => JsTarget.resolution_inj.mp, rfl⟩
  | unknown => exact absurd h not_false

theorem jsSearch_answers
    (hsize : (reachable conn paths (file, name)).encard ≤ maxJsReexportDepth)
    (hlink : ∀ q ∈ reachable conn paths (file, name), ¬ Unresolved conn paths q) :
    Answers (ofVerdict (jsSearch conn paths (file, name)).1) (resolutions conn paths (file, name)) := by
  have himage : JsTarget.resolution '' {t | t.resolution ∈ resolutions conn paths (file, name)} =
      resolutions conn paths (file, name) := by
    ext r
    constructor
    · rintro ⟨t, ht, rfl⟩
      exact ht
    · rintro ⟨q, hq, hr⟩
      obtain ⟨t, rfl⟩ := hr.exists_target
      exact ⟨t, ⟨q, hq, hr⟩, rfl⟩
  have hans := answers_of_describes (jsSearch_describes hsize hlink)
  rwa [himage] at hans

/-! ### The order of the `export *` entries -/

def Entry.isStar : Entry → Bool
  | .star _ => true
  | _ => false

/-- Two files that differ in the order of their `export *` entries only. -/
structure StarsReordered (f f' : FileExports) : Prop where
  published : f'.published = f.published
  others : f'.entries.filter (!·.isStar) = f.entries.filter (!·.isStar)
  stars : f'.starSpecs.Perm f.starSpecs

/-- A search for an entry that no `export *` entry can answer skips these. -/
theorem findSome?_eq_filter {γ : Type} {g : Entry → Option γ} (hg : ∀ spec, g (.star spec) = none)
    (es : List Entry) : es.findSome? g = (es.filter (!·.isStar)).findSome? g := by
  induction es with
  | nil => rfl
  | cons e es ih =>
    cases e with
    | star spec => simp [Entry.isStar, hg, ih]
    | localExport exported loc => simp [Entry.isStar, List.findSome?_cons, ih]
    | indirect exported spec imported => simp [Entry.isStar, List.findSome?_cons, ih]

theorem any_eq_filter {g : Entry → Bool} (hg : ∀ spec, g (.star spec) = false) (es : List Entry) :
    es.any g = (es.filter (!·.isStar)).any g := by
  induction es with
  | nil => rfl
  | cons e es ih =>
    cases e with
    | star spec => simp [Entry.isStar, hg, ih]
    | localExport exported loc => simp [Entry.isStar, ih]
    | indirect exported spec imported => simp [Entry.isStar, ih]

variable {f f' : FileExports}

theorem StarsReordered.localOf (h : StarsReordered f f') (name : String) : f'.localOf name = f.localOf name := by
  unfold FileExports.localOf
  rw [findSome?_eq_filter (fun _ => rfl) f'.entries, findSome?_eq_filter (fun _ => rfl) f.entries,
    any_eq_filter (fun _ => rfl) f'.entries, any_eq_filter (fun _ => rfl) f.entries, h.others, h.published]

theorem StarsReordered.indirectOf (h : StarsReordered f f') (name : String) :
    f'.indirectOf name = f.indirectOf name := by
  unfold FileExports.indirectOf
  rw [findSome?_eq_filter (fun _ => rfl) f'.entries, findSome?_eq_filter (fun _ => rfl) f.entries, h.others]

theorem StarsReordered.mem_starSources (h : StarsReordered f f') {next : String} :
    next ∈ f'.starSources file paths ↔ next ∈ f.starSources file paths := by
  unfold FileExports.starSources
  simp only [List.mem_filterMap, h.stars.mem_iff]

section Reordered

variable {conn' : Conn}
  (h : ∀ file, StarsReordered (FileExports.load conn file) (FileExports.load conn' file))

include h

theorem reExports_of_reordered : ReExports conn' paths = ReExports conn paths := by
  ext p q
  constructor
  · rintro (⟨hl, hi, hr⟩ | ⟨hl, hi, hd, hs⟩)
    · exact .indirect ((h _).localOf _ ▸ hl) ((h _).indirectOf _ ▸ hi) hr
    · exact .star ((h _).localOf _ ▸ hl) ((h _).indirectOf _ ▸ hi) hd ((h _).mem_starSources.mp hs)
  · rintro (⟨hl, hi, hr⟩ | ⟨hl, hi, hd, hs⟩)
    · exact .indirect (((h _).localOf _).trans hl) (((h _).indirectOf _).trans hi) hr
    · exact .star (((h _).localOf _).trans hl) (((h _).indirectOf _).trans hi) hd
        ((h _).mem_starSources.mpr hs)

theorem terminal_of_reordered : Terminal conn' paths = Terminal conn paths := by
  ext p r
  constructor
  · rintro (⟨hl⟩ | ⟨hl, hi, hr⟩)
    · exact .binding ((h _).localOf _ ▸ hl)
    · exact .namespaceOf ((h _).localOf _ ▸ hl) ((h _).indirectOf _ ▸ hi) hr
  · rintro (⟨hl⟩ | ⟨hl, hi, hr⟩)
    · exact .binding (((h _).localOf _).trans hl)
    · exact .namespaceOf (((h _).localOf _).trans hl) (((h _).indirectOf _).trans hi) hr

theorem unresolved_of_reordered : Unresolved conn' paths = Unresolved conn paths := by
  funext p
  unfold Unresolved
  rw [(h p.1).localOf p.2, (h p.1).indirectOf p.2]

end Reordered

/-! ### `ResolveExport` -/

/-- The walk is `ResolveExport`. When at most as many pairs can be reached as the depth bound allows, none of them
with an indirect entry that names no file, the answer says whether the resolutions that can be reached are
none, one or several. So it is the same for every order of the `export *` entries, and after whatever
lookups came before. -/
theorem walk_is_resolve_export (conn : Conn) (paths : Finset String) (file name : String)
    (hsize : (reachable conn paths (file, name)).encard ≤ maxJsReexportDepth)
    (hlink : ∀ q ∈ reachable conn paths (file, name), ¬ Unresolved conn paths q) :
    Answers (JsExports.walk conn paths (maxJsReexportDepth + 1) file name ⟨{}, ∅⟩).1
        (resolutions conn paths (file, name)) ∧
      (∀ conn', (∀ f, StarsReordered (FileExports.load conn f) (FileExports.load conn' f)) →
        (JsExports.walk conn' paths (maxJsReexportDepth + 1) file name ⟨{}, ∅⟩).1 =
          (JsExports.walk conn paths (maxJsReexportDepth + 1) file name ⟨{}, ∅⟩).1) ∧
      ∀ earlier, ((JsExports.lookups conn paths {} earlier).resolve conn paths file name).1 =
        (JsExports.walk conn paths (maxJsReexportDepth + 1) file name ⟨{}, ∅⟩).1 := by
  rw [walk_answer consistent_empty]
  have hans := jsSearch_answers hsize hlink
  refine ⟨hans, fun conn' hre => ?_, fun earlier => ?_⟩
  · have hreach : reachable conn' paths (file, name) = reachable conn paths (file, name) := by
      unfold reachable
      rw [reExports_of_reordered hre]
    have hfound : resolutions conn' paths (file, name) = resolutions conn paths (file, name) := by
      unfold resolutions
      rw [hreach, terminal_of_reordered hre]
    have hans' : Answers (ofVerdict (jsSearch conn' paths (file, name)).1)
        (resolutions conn' paths (file, name)) := by
      apply jsSearch_answers
      · rwa [hreach]
      · rwa [hreach, unresolved_of_reordered hre]
    rw [walk_answer consistent_empty]
    apply hans'.unique
    rwa [hfound]
  · exact ((consistent_empty.lookups earlier).resolve file name).1

/-- Two ways from `a.js` to the `x` of `d.js`, and one back. -/
def diamond : Conn where
  paths := {"a.js", "b.js", "c.js", "d.js"}
  entryRows file :=
    if file = "a.js" then
      [⟨"star", none, none, some "./b"⟩, ⟨"star", none, none, some "./c"⟩]
    else if file = "b.js" then [⟨"indirect", some "x", some "x", some "./d"⟩]
    else if file = "c.js" then [⟨"star", none, none, some "./d"⟩, ⟨"star", none, none, some "./a"⟩]
    else if file = "d.js" then [⟨"local", some "x", some "x", none⟩]
    else []
  exportMap _ := []
  names _ := {"x"}
  importRows := []

def diamondPairs : Finset (String × String) := {("a.js", "x"), ("b.js", "x"), ("c.js", "x"), ("d.js", "x")}

theorem diamond_reachable : reachable diamond diamond.paths ("a.js", "x") ⊆ diamondPairs := by
  have hclosed : ∀ p ∈ diamondPairs, ∀ q ∈ (jsNode diamond diamond.paths p).succs, q ∈ diamondPairs := by
    decide +kernel
  intro q hq
  induction hq with
  | refl => decide +kernel
  | tail _ hstep ih => exact hclosed _ ih _ (forwards_iff_reExports.mpr hstep)

theorem diamond_resolves :
    Answers (JsExports.walk diamond diamond.paths (maxJsReexportDepth + 1) "a.js" "x" ⟨{}, ∅⟩).1
        (resolutions diamond diamond.paths ("a.js", "x")) ∧
      (JsExports.walk diamond diamond.paths (maxJsReexportDepth + 1) "a.js" "x" ⟨{}, ∅⟩).1 =
        .binding "d.js" "x" := by
  have hlink : ∀ p ∈ diamondPairs, jsNode diamond diamond.paths p ≠ .broken := by
    decide +kernel
  refine ⟨(walk_is_resolve_export diamond diamond.paths "a.js" "x" ?_ ?_).1, by decide +kernel⟩
  · calc (reachable diamond diamond.paths ("a.js", "x")).encard
        ≤ (diamondPairs : Set (String × String)).encard := Set.encard_le_encard diamond_reachable
      _ = diamondPairs.card := Set.encard_coe_eq_coe_finsetCard diamondPairs
      _ ≤ maxJsReexportDepth := by decide +kernel
  · intro q hq hun
    exact hlink q (diamond_reachable hq) (jsNode_eq_broken_iff.mpr hun)

end CodeGraph.Pipeline
