import CodeGraph.Utils.Tokenizer
import CodeGraph.Lib.Words
import Mathlib.Data.List.SplitBy

/-!
# Words of an identifier

The loop cuts a name at its underscores and its humps. `humps` says so without an accumulator: it groups neighbours, and
a character is grouped knowing the one behind it, since an acronym ends one letter before the lower case starts.
-/

namespace CodeGraph.Utils

open CodeGraph.Lib
open CodeGraph.Pipeline.InFlight (isWhitespace)

variable (U : Unicode)

/-- Each character with the one behind it. -/
def withNext : List Char → List (Char × Option Char)
  | [] => []
  | c :: s => (c, s.head?) :: withNext s

/-- A capital starts a word behind a lower case letter, and behind a capital when a lower case letter follows. -/
def Hump (a b : Char × Option Char) : Prop :=
  U.isUppercase b.1 = true ∧ (U.isLowercase a.1 = true ∨ U.isUppercase a.1 = true ∧ b.2.any U.isLowercase = true)

instance : DecidableRel (Hump U) := fun _ _ => inferInstanceAs (Decidable (_ ∧ _))

/-- Neighbours of one word. -/
def together (a b : Char × Option Char) : Bool := decide (a.1 ≠ '_' ∧ b.1 ≠ '_' ∧ ¬Hump U a b)

/-- The words between the underscores and the humps of a name. -/
def humps (name : List Char) : List (List Char) :=
  (((withNext name).splitBy (together U)).map (List.map Prod.fst)).filter fun w => w ≠ ['_']

theorem map_fst_withNext (s : List Char) : (withNext s).map Prod.fst = s := by
  induction s with
  | nil => rfl
  | cons c s ih => rw [withNext, List.map_cons, ih]

variable {U}

theorem together_underscore_left {a b : Char × Option Char} (ha : a.1 = '_') : together U a b = false := by
  simp [together, ha]

theorem together_underscore_right {a b : Char × Option Char} (hb : b.1 = '_') : together U a b = false := by
  simp [together, hb]

/-- An open word: a stretch of the name that nothing cuts. -/
structure Open (U : Unicode) (g : List (Char × Option Char)) : Prop where
  chain : g.IsChain fun a b => together U a b = true
  free : ∀ a ∈ g, a.1 ≠ '_'

theorem Open.nil : Open U [] := ⟨.nil, by simp⟩

theorem Open.singleton {a : Char × Option Char} (ha : a.1 ≠ '_') : Open U [a] :=
  ⟨.singleton a, by simpa using ha⟩

theorem Open.concat {g : List (Char × Option Char)} {a : Char × Option Char} (hg : Open U g) (ha : a.1 ≠ '_')
    (hlast : ∀ b ∈ g.getLast?, ¬Hump U b a) : Open U (g ++ [a]) where
  chain := by
    rw [List.isChain_append]
    refine ⟨hg.chain, .singleton a, ?_⟩
    intro b hb c hc
    obtain rfl : a = c := by simpa using hc
    have hfree := hg.free b (List.mem_of_mem_getLast? hb)
    simp [together, hfree, ha, hlast b hb]
  free := by
    intro b hb
    rcases List.mem_append.mp hb with hb | hb
    · exact hg.free b hb
    · rwa [List.mem_singleton.mp hb]

/-- What `humps` keeps of groups. -/
def keep (groups : List (List (Char × Option Char))) : List (List Char) :=
  (groups.map (List.map Prod.fst)).filter fun w => w ≠ ['_']

theorem keep_append (a b : List (List (Char × Option Char))) : keep (a ++ b) = keep a ++ keep b := by
  rw [keep, List.map_append, List.filter_append]
  rfl

theorem Open.keep_splitBy {g : List (Char × Option Char)} (hg : Open U g) :
    keep (g.splitBy (together U)) = if g.isEmpty then [] else [g.map Prod.fst] := by
  by_cases hnil : g = []
  · rw [hnil]
    rfl
  · have hne : g.map Prod.fst ≠ ['_'] := by
      intro h
      obtain ⟨a, ha, hfst⟩ := List.mem_map.mp (h ▸ List.mem_singleton_self '_')
      exact hg.free a ha hfst
    rw [List.splitBy_of_isChain hnil hg.chain]
    simp [keep, hne, hnil]

theorem startsWord_iff (g : List (Char × Option Char)) (c : Char) (rest : List Char) :
    startsWord U (g.map Prod.fst) c rest = true ↔ ∃ a ∈ g.getLast?, Hump U a (c, rest.head?) := by
  have hlast : (g.map Prod.fst).getLast? = g.getLast?.map Prod.fst := List.getLast?_map
  rw [startsWord, hlast, List.isEmpty_map]
  cases hg : g.getLast? with
  | none => simp
  | some a =>
    have hne : g.isEmpty = false := by
      cases g with
      | nil => simp at hg
      | cons => rfl
    simp [Hump, hne]

/-- The invariant of the loop: `current` is an open word, and what is still to come is grouped behind it. -/
theorem splitLoop_eq (parts : List (List Char)) {g : List (Char × Option Char)} (hg : Open U g) (rest : List Char) :
    splitLoop U parts (g.map Prod.fst) rest = parts ++ keep ((g ++ withNext rest).splitBy (together U)) := by
  induction rest generalizing parts g with
  | nil =>
    rw [withNext, List.append_nil, hg.keep_splitBy, splitLoop, List.isEmpty_map]
    split_ifs
    · rw [List.append_nil]
    · rfl
  | cons c rest ih =>
    rw [splitLoop, withNext]
    by_cases hc : c = '_'
    · -- An underscore is a group of its own, which is not kept.
      have hcut : ∀ x ∈ g.getLast?, together U x (c, rest.head?) = false := fun x _ => together_underscore_right hc
      have hcut' : ∀ x ∈ [(c, rest.head?)].getLast?, ∀ y ∈ (withNext rest).head?, together U x y = false := by
        intro x hx y _
        obtain rfl : (c, rest.head?) = x := by simpa using hx
        exact together_underscore_left hc
      have hsplit := List.splitBy_append hcut'
      rw [List.singleton_append] at hsplit
      rw [if_pos hc, List.splitBy_append_cons _ hcut, hsplit, keep_append, keep_append, hg.keep_splitBy,
        List.isEmpty_map]
      have hunder : keep ([(c, rest.head?)].splitBy (together U)) = [] := by
        rw [hc]
        rfl
      have hnext := fun parts => ih parts Open.nil
      simp only [List.map_nil, List.nil_append] at hnext
      rw [hunder, List.nil_append, hnext]
      split_ifs <;> simp
    · rw [if_neg hc]
      have hhump := startsWord_iff (U := U) g c rest
      by_cases hcut : ∃ a ∈ g.getLast?, Hump U a (c, rest.head?)
      · have hfalse : ∀ x ∈ g.getLast?, together U x (c, rest.head?) = false := by
          obtain ⟨a, ha, hump⟩ := hcut
          intro x hx
          obtain rfl := Option.mem_unique ha hx
          simp [together, hump]
        have hne : g.isEmpty = false := by
          obtain ⟨a, ha, -⟩ := hcut
          cases g with
          | nil => simp at ha
          | cons => rfl
        have hstart := ih (parts ++ [g.map Prod.fst]) (Open.singleton (U := U) (a := (c, rest.head?)) hc)
        rw [List.map_singleton, List.singleton_append] at hstart
        rw [if_pos (hhump.mpr hcut), List.splitBy_append_cons _ hfalse, keep_append, hg.keep_splitBy, hstart]
        simp [hne]
      · have hno : ∀ a ∈ g.getLast?, ¬Hump U a (c, rest.head?) := fun a ha h => hcut ⟨a, ha, h⟩
        have hgrow := ih parts (hg.concat (a := (c, rest.head?)) hc hno)
        rw [List.map_append, List.map_singleton, List.append_assoc, List.singleton_append] at hgrow
        rw [if_neg (mt hhump.mp hcut), hgrow]

theorem splitLoop_eq_humps (name : List Char) : splitLoop U [] [] name = humps U name := by
  have h := splitLoop_eq (U := U) [] Open.nil name
  simpa [keep, humps] using h

theorem flatten_filter_singleton (c : Char) (groups : List (List Char))
    (h : ∀ g ∈ groups, c ∈ g → g = [c]) :
    (groups.filter fun g => g ≠ [c]).flatten = groups.flatten.filter fun d => d ≠ c := by
  induction groups with
  | nil => rfl
  | cons g groups ih =>
    have hrest := ih fun g' hg' => h g' (List.mem_cons_of_mem g hg')
    rw [List.flatten_cons, List.filter_append, ← hrest]
    by_cases hg : g = [c]
    · simp [hg]
    · have hfree : g.filter (fun d => d ≠ c) = g := by
        apply List.filter_eq_self.mpr
        intro d hd
        have hdc : d ≠ c := by
          rintro rfl
          exact hg (h g List.mem_cons_self hd)
        simpa using hdc
      rw [List.filter_cons_of_pos (by simpa using hg), List.flatten_cons, hfree]

/-- A group with an underscore is that underscore. -/
theorem eq_singleton_of_chain {g : List (Char × Option Char)} (hg : g.IsChain fun a b => together U a b = true)
    (h : '_' ∈ g.map Prod.fst) : g.map Prod.fst = ['_'] := by
  obtain ⟨a, ha, hfst⟩ := List.mem_map.mp h
  obtain ⟨l, r, rfl⟩ := List.append_of_mem ha
  rw [List.isChain_append] at hg
  obtain ⟨-, hr, hl⟩ := hg
  have hrnil : r = [] := by
    cases r with
    | nil => rfl
    | cons b r => simp [together_underscore_left hfst] at hr
  have hlnil : l = [] := by
    rcases List.eq_nil_or_concat l with rfl | ⟨l', b, rfl⟩
    · rfl
    · have hlast := hl b (by simp) a (by simp)
      simp [together_underscore_right hfst] at hlast
  rw [hrnil, hlnil, List.nil_append, List.map_singleton, hfst]

theorem flatten_humps (name : List Char) : (humps U name).flatten = name.filter fun c => c ≠ '_' := by
  have hgroups : ∀ g ∈ ((withNext name).splitBy (together U)).map (List.map Prod.fst), '_' ∈ g → g = ['_'] := by
    intro g hg hmem
    obtain ⟨g', hg', rfl⟩ := List.mem_map.mp hg
    exact eq_singleton_of_chain (List.isChain_of_mem_splitBy hg') hmem
  rw [humps, flatten_filter_singleton '_' _ hgroups, ← List.map_flatten, List.flatten_splitBy, map_fst_withNext]

theorem ne_nil_of_mem_humps {name w : List Char} (hw : w ∈ humps U name) : w ≠ [] := by
  obtain ⟨g, hg, rfl⟩ := List.mem_map.mp (List.mem_of_mem_filter hw)
  simpa using List.ne_nil_of_mem_splitBy hg

theorem splitLoop_parts (parts : List (List Char)) (current rest : List Char) :
    splitLoop U parts current rest = parts ++ splitLoop U [] current rest := by
  induction rest generalizing parts current with
  | nil =>
    rw [splitLoop, splitLoop]
    split_ifs <;> simp
  | cons c rest ih =>
    rw [splitLoop, splitLoop]
    by_cases hc : c = '_'
    · rw [if_pos hc, if_pos hc, ih, ih (if current.isEmpty then [] else [] ++ [current])]
      split_ifs <;> simp
    · rw [if_neg hc, if_neg hc]
      split_ifs
      · rw [ih (parts ++ [current]), ih ([] ++ [current])]
        simp
      · exact ih parts (current ++ [c])

/-- Behind an underscore the loop starts afresh. -/
theorem splitLoop_append_underscore (parts : List (List Char)) (current u v : List Char) :
    splitLoop U parts current (u ++ '_' :: v) = splitLoop U (splitLoop U parts current u) [] v := by
  induction u generalizing parts current with
  | nil => simp [splitLoop]
  | cons c u ih =>
    have hhead : (u ++ '_' :: v).head?.any U.isLowercase = u.head?.any U.isLowercase := by
      cases u with
      | nil => exact U.underscore
      | cons => rfl
    have hstarts : startsWord U current c (u ++ '_' :: v) = startsWord U current c u := by
      rw [startsWord, startsWord, hhead]
    rw [List.cons_append, splitLoop, splitLoop, hstarts]
    simp only [ih]
    split_ifs <;> rfl

theorem humps_append_underscore (u v : List Char) : humps U (u ++ '_' :: v) = humps U u ++ humps U v := by
  rw [← splitLoop_eq_humps, splitLoop_append_underscore, splitLoop_parts, splitLoop_eq_humps, splitLoop_eq_humps]

theorem splitIdentifier_eq (name : List Char) : splitIdentifier U name =
    if (humps U name).length ≤ 1 then name else [' '].intercalate (humps U name) ++ [' '] ++ name := by
  rw [splitIdentifier, splitLoop_eq_humps]

/-- The last occurrence of a text at the end of another. -/
theorem rfind_append (a pat : List Char) : rfind pat (a ++ pat) = some a.length := by
  have hrange : List.range ((a ++ pat).length + 1) =
      List.range a.length ++ a.length :: (List.range pat.length).map (a.length + 1 + ·) := by
    have hlen : (a ++ pat).length + 1 = a.length + 1 + pat.length := by
      rw [List.length_append]
      omega
    rw [hlen, List.range_add, List.range_succ, List.append_assoc, List.singleton_append]
  have hbehind : ((List.range pat.length).map (a.length + 1 + ·)).reverse.find?
      (fun i => pat.isPrefixOf ((a ++ pat).drop i)) = none := by
    apply List.find?_eq_none.mpr
    intro i hi hpre
    obtain ⟨k, hk, rfl⟩ := List.mem_map.mp (List.mem_reverse.mp hi)
    have hle := (List.isPrefixOf_iff_prefix.mp hpre).length_le
    rw [List.length_drop, List.length_append] at hle
    have hk' := List.mem_range.mp hk
    omega
  have hhere : pat.isPrefixOf ((a ++ pat).drop a.length) = true := by
    rw [List.drop_left]
    exact List.isPrefixOf_iff_prefix.mpr (List.prefix_refl pat)
  rw [rfind, hrange, List.reverse_append, List.reverse_cons, List.append_assoc, List.singleton_append,
    List.find?_append, hbehind, Option.none_or]
  exact List.find?_cons_of_pos hhere

theorem splitIdentifierTokens_eq (name : List Char) : splitIdentifierTokens U name =
    if (humps U name).length ≤ 1 then name else trimEnd ([' '].intercalate (humps U name)) := by
  have htrim : ∀ s, trimEnd (s ++ [' ']) = trimEnd s := fun s => by simp [trimEnd, List.rdropWhile_concat_pos, isWhitespace]
  rw [splitIdentifierTokens, splitIdentifier_eq]
  by_cases hlen : (humps U name).length ≤ 1
  · rw [if_pos hlen, if_pos hlen, if_pos rfl]
  · -- The longer text is not the name.
    have hlonger : [' '].intercalate (humps U name) ++ [' '] ++ name ≠ name := by
      intro h
      have hcount := congrArg List.length h
      simp only [List.length_append, List.length_singleton] at hcount
      omega
    rw [if_neg hlen, if_neg hlen, if_neg hlonger, rfind_append]
    simp only [List.take_left, htrim]

/-- **Words of an identifier.** -/
theorem identifier_words (U : Unicode) (name : List Char) :
    (humps U name).flatten = name.filter (fun c => c ≠ '_') ∧ (∀ w ∈ humps U name, w ≠ []) ∧
    (∀ u v, name = u ++ '_' :: v → humps U name = humps U u ++ humps U v) ∧
    splitIdentifier U name =
      (if (humps U name).length ≤ 1 then name else [' '].intercalate (humps U name) ++ [' '] ++ name) ∧
    splitIdentifierTokens U name =
      if (humps U name).length ≤ 1 then name else trimEnd ([' '].intercalate (humps U name)) := by
  refine ⟨flatten_humps name, fun w => ne_nil_of_mem_humps, ?_, splitIdentifier_eq name, splitIdentifierTokens_eq name⟩
  rintro u v rfl
  exact humps_append_underscore u v

end CodeGraph.Utils
