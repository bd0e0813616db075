import CodeGraph.Plugin.Correct.Strip
import Mathlib.Data.List.Nodup

/-!
# What adopting and unadopting does to the user's text

`stripSentinelBlock` takes out of a text only marker lines, what stands between a begin-marker line and the next
end-marker line, and newlines next to what is taken out; and a text that is adopted, with whatever project types in a
row, and unadopted again is the old one up to the newlines at its end. Both hold of the texts in which no begin marker
runs over a line end (`Unbroken`): the pattern of the begin marker stops at a newline, but not at the other characters
that end a line for `^` and `$`.
-/

namespace CodeGraph.Plugin.Adopt

open CodeGraph.Lib

variable {c s t m rest : List Char}

/-! ### What may be taken out -/

/-- `s` is a line of `c`, between `a` and `b`. -/
structure IsLine (c a s b : List Char) : Prop where
  text : c = a ++ s ++ b
  start : AtStart a
  lineEnd : lineEnd b = true
  line : ∀ ch ∈ s, lineTerminator ch = false

/-- The character at `i` belongs to a marker line, or it stands between a begin-marker line and the next end-marker line,
with no begin marker in between. -/
inductive Removable (c : List Char) (i : ℕ) : Prop
  | marker {a s b : List Char} : IsLine c a s b → IsMarker s → a.length ≤ i → i < (a ++ s).length → Removable c i
  | between {a start body stop b : List Char} : IsLine c a start (body ++ (stop ++ b)) → BeginMarker start →
      BlockBody body stop b → (a ++ start).length ≤ i → i < (a ++ start ++ body).length → Removable c i

/-- No begin marker that stands alone runs over a line end. -/
def Unbroken (c : List Char) : Prop :=
  ∀ a s b, c = a ++ s ++ b → AtStart a → BeginMarker s → lineEnd b = true → ∀ ch ∈ s, lineTerminator ch = false

def NoMarkerLine (c : List Char) : Prop :=
  ∀ a s b, IsLine c a s b → ¬IsMarker s

/-- `f` after it was adopted with each of the project types in turn and unadopted in the end. -/
def adoptEach (types : List ProjectType) (f : ClaudeMd) : ClaudeMd :=
  types.foldl (fun f projectType => adopt projectType f) f

/-- What adopting and unadopting owes to the text `c` of a user. -/
structure ProseKept (c : List Char) : Prop where
  removes : ∃ X, Cut (fun x => x.1 = '\n') (fun x => Removable c x.2) c.zipIdx X ∧
    X.map Prod.fst = stripSentinelBlock c
  clean : NoMarkerLine (stripSentinelBlock c)
  stable : stripSentinelBlock (stripSentinelBlock c) = stripSentinelBlock c
  untouched : NoMarkerLine c → stripSentinelBlock c = c
  unadopted : NoMarkerLine c → ∀ (f : ClaudeMd) (projectType : ProjectType) (types : List ProjectType),
    f.text.getD [] = c →
      let left := unadopt (adoptEach (projectType :: types) f)
      (∃ r, left.text = some r ∧ trimNewlines r = trimNewlines c) ∨ (left.text = none ∧ isBlank c = true)

/-! ### Characters and their places -/

theorem place_of_mem {U S V : List (Char × ℕ)} (h : c.zipIdx = U ++ S ++ V) {x : Char × ℕ} (hx : x ∈ S) :
    (chars U).length ≤ x.2 ∧ x.2 < (chars (U ++ S)).length := by
  obtain ⟨k, hk, rfl⟩ := List.mem_iff_getElem.mp hx
  have hlt : U.length + k < c.zipIdx.length := by
    rw [h]
    simp
    omega
  have hget : c.zipIdx[U.length + k] = S[k] := by
    simp [h, hk]
  rw [← hget, List.getElem_zipIdx]
  simp only [chars, List.length_map, List.length_append]
  omega

theorem chars_zipIdx : chars c.zipIdx = c :=
  List.zipIdx_map_fst 0 c

/-- A marker of which every line is a line. -/
theorem removable_of_marker {U S V : List (Char × ℕ)} (h : c.zipIdx = U ++ S ++ V) (hstart : AtStart (chars U))
    (hmarker : IsMarker (chars S)) (hend : lineEnd (chars V) = true)
    (hline : ∀ ch ∈ chars S, lineTerminator ch = false) : ∀ x ∈ S, Removable c x.2 := by
  intro x hx
  have htext : c = chars U ++ chars S ++ chars V := by
    rw [← chars_append, ← chars_append, ← h, chars_zipIdx]
  have hplace := place_of_mem h hx
  rw [chars_append] at hplace
  exact .marker ⟨htext, hstart, hend, hline⟩ hmarker hplace.1 hplace.2

theorem begin_removable (hc : Unbroken c) : Each beginLine (fun S => ∀ x ∈ S, Removable c x.2) c.zipIdx := by
  intro U S V heq hstart htake
  obtain ⟨-, hmarker, hend⟩ := beginLine_eq_some_iff.mp htake
  have htext : c = chars U ++ chars S ++ chars V := by
    rw [← chars_append, ← chars_append, ← heq, chars_zipIdx]
  exact removable_of_marker heq hstart (Or.inl hmarker) hend (hc _ _ _ htext hstart hmarker hend)

theorem end_removable : Each endLine (fun S => ∀ x ∈ S, Removable c x.2) c.zipIdx := by
  intro U S V heq hstart htake
  obtain ⟨-, hmarker, hend⟩ := endLine_eq_some_iff.mp htake
  exact removable_of_marker heq hstart (Or.inr hmarker) hend hmarker.line

theorem block_removable (hc : Unbroken c) : Each wholeBlock (fun S => ∀ x ∈ S, Removable c x.2) c.zipIdx := by
  intro U S V heq hstart htake x hx
  obtain ⟨start, body, stop, hS, hbegin, hbody⟩ := wholeBlock_eq_some_iff.mp htake
  obtain ⟨S', S₃, rfl, hS', rfl⟩ := chars_eq_append_iff.mp hS
  obtain ⟨S₁, S₂, rfl, rfl, rfl⟩ := chars_eq_append_iff.mp hS'
  rw [List.mem_append, List.mem_append] at hx
  rcases hx with (hx | hx) | hx
  · have hsplit : c.zipIdx = U ++ S₁ ++ (S₂ ++ S₃ ++ V) := by rw [heq]; simp
    refine begin_removable hc U S₁ (S₂ ++ S₃ ++ V) hsplit hstart ?_ x hx
    simpa using hbegin
  · have hsplit : c.zipIdx = (U ++ S₁) ++ S₂ ++ (S₃ ++ V) := by rw [heq]; simp
    obtain ⟨-, hmarker, hend⟩ := beginLine_eq_some_iff.mp hbegin
    have htext : c = chars U ++ chars S₁ ++ (chars S₂ ++ (chars S₃ ++ chars V)) := by
      have hchars : c = chars (U ++ (S₁ ++ S₂ ++ S₃) ++ V) := by rw [← heq, chars_zipIdx]
      simpa using hchars
    have hline := hc _ _ _ htext hstart hmarker hend
    have hplace := place_of_mem hsplit hx
    simp only [chars_append] at hplace
    exact .between ⟨htext, hstart, hend, hline⟩ hmarker hbody hplace.1 hplace.2
  · have hsplit : c.zipIdx = (U ++ S₁ ++ S₂) ++ S₃ ++ V := by rw [heq]; simp
    have hne : chars S₂ ≠ [] := by
      intro h
      have hends := hbody.endsLine
      rw [h] at hends
      cases hends
    refine removable_of_marker hsplit ?_ (Or.inr hbody.marker) hbody.lineEnd hbody.marker.line x hx
    rw [chars_append, atStart_append hne]
    exact hbody.endsLine

/-! ### The three passes -/

/-- No line of the text is taken. -/
def Free (q : List Char → Option Match) (c : List Char) : Prop :=
  ∀ a s, c = a ++ s → AtStart a → q s = none

theorem Each.free {X : List (Char × ℕ)} {q : List Char → Option Match} (h : Each q (fun _ => False) X)
    (hq : ∀ {text m rest}, q text = some (m, rest) → text = m ++ rest) : Free q (chars X) := by
  intro a s heq hstart
  rw [Option.eq_none_iff_forall_ne_some]
  rintro ⟨m, rest⟩ htake
  obtain ⟨U, S, rfl, rfl, hS⟩ := chars_eq_append_iff.mp heq
  obtain ⟨S, V, rfl, rfl, rfl⟩ := chars_eq_append_iff.mp (hS.trans (hq htake))
  rw [hq htake] at htake
  exact h U S V (by simp) hstart htake

theorem endLine_spells (h : endLine s = some (m, rest)) : sentinelEnd.toList <:+: s := by
  obtain ⟨rfl, ⟨lead, _, trail, rfl, -, rfl, -⟩, -⟩ := endLine_eq_some_iff.mp h
  exact ⟨lead, trail ++ rest, by simp⟩

theorem nodup_zipIdx (c : List Char) : c.zipIdx.Nodup := by
  refine List.Nodup.of_map Prod.snd ?_
  rw [List.zipIdx_map_snd]
  exact List.nodup_range'

theorem Each.not_stands {X S : List (Char × ℕ)} {q : List Char → Option Match} {Shape : List Char → Prop}
    (h : Each q (fun _ => False) X) (hq : Takes q Shape) (hS : Shape (chars S)) : ¬StandsIn S X := by
  rintro ⟨U, V, heq, hstart, hend⟩
  exact h U S V heq hstart (hq.eq_some_iff.mpr ⟨rfl, hS, hend⟩)

/-- What `stripSentinelBlock` takes out: every marker and every block, and nothing else but newlines. -/
theorem exists_stripSentinelBlock (hard : ℕ → Prop)
    (hblock : Each wholeBlock (fun S => ∀ x ∈ S, hard x.2) c.zipIdx)
    (hbegin : Each beginLine (fun S => ∀ x ∈ S, hard x.2) c.zipIdx)
    (hend : Each endLine (fun S => ∀ x ∈ S, hard x.2) c.zipIdx) :
    ∃ X, chars X = stripSentinelBlock c ∧ Kept hard c.zipIdx X ∧
      Each beginLine (fun _ => False) X ∧ Each endLine (fun _ => False) X ∧
      (∀ S, IsMarker (chars S) → StandsIn S c.zipIdx → ∀ x ∈ S, x ∉ X) ∧
      ∀ U G V, c.zipIdx = U ++ G ++ V → AtStart (chars U) →
        wholeBlock (chars G ++ chars V) = some (chars G, chars V) → ∀ x ∈ G, x ∉ X := by
  obtain ⟨X, hX, hkept, hblocks⟩ := exists_wellFormed hblock (nodup_zipIdx c)
  obtain ⟨Y, hY, hkept', hnobegin⟩ := exists_orphanBegin (hkept.begins _ hbegin)
  rw [chars_zipIdx] at hX
  rw [hX] at hY
  -- the pass over the end markers runs only where the text has one
  have hlast : ∃ Z, chars Z = stripSentinelBlock c ∧ Kept hard Y Z ∧ Each endLine (fun _ => False) Z := by
    rw [stripSentinelBlock, ← hY]
    split
    case isTrue => exact exists_orphanEnd hnobegin ((hkept.trans hkept').ends _ hend)
    case isFalse hnot =>
      refine ⟨Y, rfl, .refl Y, ?_⟩
      intro U S V heq hstart htake
      refine hnot (List.IsInfix.trans (endLine_spells htake) ⟨chars U, [], ?_⟩)
      rw [heq]
      simp
  obtain ⟨Z, hZ, hkept'', hnoend⟩ := hlast
  have hnobegin' := hkept''.begins _ hnobegin
  have hall := (hkept.trans hkept').trans hkept''
  refine ⟨Z, hZ, hall, hnobegin', hnoend, ?_, ?_⟩
  · intro S hS hstands
    refine (hall.markers (nodup_zipIdx c) S hS hstands).resolve_left ?_
    rcases hS with hS | hS
    exacts [hnobegin'.not_stands takesBegin hS, hnoend.not_stands takesEnd hS]
  · intro U G V hT hstart htake x hx hmem
    exact hblocks.gone hT hstart htake x hx ((hkept'.trans hkept'').cut.sublist.subset hmem)

theorem exec_eq_none {re : LinePattern} {a : List Char} {atStart : Bool} (h : Free re.lines (a ++ s))
    (hstart : atStart = true → AtStart a) : re.exec atStart s = none := by
  induction s generalizing a atStart with
  | nil => rfl
  | cons ch s ih =>
    have hnone : (if atStart then re.run (ch :: s) else none) = none := by
      split
      case isTrue hat => rw [LinePattern.run, h a (ch :: s) rfl (hstart hat), Option.map_none]
      case isFalse => rfl
    have hrest : re.exec (lineTerminator ch) s = none := by
      refine ih (a := a ++ [ch]) (by simpa using h) fun hch => ?_
      rw [atStart_append (by simp)]
      exact hch
    rw [LinePattern.exec, hnone, hrest]
    rfl

theorem stripAndHealSeams_of_free {re : LinePattern} (h : Free re.lines c) : stripAndHealSeams c re = c := by
  have hnone : re.exec true c = none := exec_eq_none (a := []) h fun _ => Or.inl rfl
  rw [stripAndHealSeams, stripFrom]
  split
  case h_1 => rfl
  case h_2 hsome =>
    rw [hnone] at hsome
    cases hsome

theorem Free.wholeBlock (h : Free beginLine c) : Free wholeBlock c := by
  intro a s heq hstart
  rw [Adopt.wholeBlock, h a s heq hstart]
  rfl

theorem stripSentinelBlock_of_free (hbegin : Free beginLine c) (hend : Free endLine c) : stripSentinelBlock c = c := by
  have hwhole : stripAndHealSeams c .wellFormed = c := stripAndHealSeams_of_free hbegin.wholeBlock
  have horphan : stripAndHealSeams c .orphanBegin = c := stripAndHealSeams_of_free hbegin
  have hlast : stripAndHealSeams c .orphanEnd = c := stripAndHealSeams_of_free hend
  rw [stripSentinelBlock, hwhole, horphan]
  split
  exacts [hlast, rfl]

theorem noMarkerLine_of_free (hbegin : Free beginLine c) (hend : Free endLine c) : NoMarkerLine c := by
  rintro a s b hline (hs | hs)
  · have htake := beginLine_eq_some_iff.mpr ⟨rfl, hs, hline.lineEnd⟩
    rw [hbegin a (s ++ b) (by rw [hline.text, List.append_assoc]) hline.start] at htake
    cases htake
  · have htake := endLine_eq_some_iff.mpr ⟨rfl, hs, hline.lineEnd⟩
    rw [hend a (s ++ b) (by rw [hline.text, List.append_assoc]) hline.start] at htake
    cases htake

theorem free_of_noMarkerLine (hc : Unbroken c) (h : NoMarkerLine c) : Free beginLine c ∧ Free endLine c := by
  constructor
  all_goals
    intro a s heq hstart
    rw [Option.eq_none_iff_forall_ne_some]
    rintro ⟨m, rest⟩ htake
  · obtain ⟨rfl, hm, hend⟩ := beginLine_eq_some_iff.mp htake
    have htext : c = a ++ m ++ rest := by rw [heq, List.append_assoc]
    exact h a m rest ⟨htext, hstart, hend, hc a m rest htext hstart hm hend⟩ (Or.inl hm)
  · obtain ⟨rfl, hm, hend⟩ := endLine_eq_some_iff.mp htake
    have htext : c = a ++ m ++ rest := by rw [heq, List.append_assoc]
    exact h a m rest ⟨htext, hstart, hend, hm.line⟩ (Or.inr hm)

/-! ### The block that is written -/

/-- A text of whole lines without an exclamation mark holds no marker. -/
theorem blockBody_of_free {body stop : List Char} (hmark : '!' ∉ body) (hnl : body.getLast? = some '\n')
    (hstop : EndMarker stop) (hend : lineEnd rest = true) : BlockBody body stop rest := by
  -- a marker that begins in the body ends in it: the newline at the end of the body is no part of a marker
  have hwithin : ∀ p q m r, body = p ++ q → q ≠ [] → q ++ (stop ++ rest) = m ++ r → '\n' ∉ m → '!' ∈ m → False := by
    rintro p q m r rfl hq heq hm hmem
    have hlast : '\n' ∈ q := by
      rw [List.getLast?_append_of_ne_nil _ hq] at hnl
      exact List.mem_of_getLast? hnl
    obtain ⟨y, rfl, -⟩ | ⟨y, rfl, -⟩ := List.append_eq_append_iff.mp heq
    · exact hm (List.mem_append_left y hlast)
    · exact hmark (List.mem_append_right p (List.mem_append_left y hmem))
  refine ⟨hstop, hend, by rw [endsLine, hnl]; rfl, ?_, ?_⟩
  · intro p q hpq hq
    rw [Option.eq_none_iff_forall_ne_some]
    rintro ⟨m, r⟩ htake
    obtain ⟨heq, w, rfl, -, hn⟩ := beginSrc_eq_some_iff.mp htake
    refine hwithin p q _ r hpq hq heq ?_ ?_
    · have hfree : '\n' ∉ beginText := fun h => (beginText_free _ h).2 rfl
      simp [hfree, hn]
    · have hmem : '!' ∈ beginText := by decide +kernel
      simp [hmem]
  · intro p q hpq hq _
    rw [Option.eq_none_iff_forall_ne_some]
    rintro ⟨m, r⟩ htake
    obtain ⟨heq, hm, -⟩ := endLine_eq_some_iff.mp htake
    refine hwithin p q m r hpq hq heq ?_ ?_
    · intro hmem
      have hfalse := hm.line _ hmem
      cases hfalse
    · obtain ⟨lead, _, trail, rfl, -, rfl, -⟩ := hm
      have hmem : '!' ∈ sentinelEnd.toList := by decide +kernel
      simp [hmem]

theorem row_free (projectType : ProjectType) :
    ∀ row ∈ buildTriggerRows projectType, '!' ∉ row.1.toList ∧ '!' ∉ row.2.toList := by
  cases projectType
  all_goals
    simp only [buildTriggerRows, List.take, List.drop, List.cons_append, List.nil_append, List.forall_mem_cons]
    repeat' apply And.intro
    all_goals first | (rw [String.toList_ofList]; decide +kernel) | simp

/-- There is no exclamation mark between the markers of the block. -/
theorem blockBody_free (projectType : ProjectType) : ∀ l ∈ blockBody projectType, '!' ∉ l.toList := by
  simp only [blockBody, List.forall_mem_append, List.forall_mem_cons, List.cons_append, List.nil_append]
  refine ⟨?heading, ?_, ?_, ?_, ?_, ?_, ?_, ?rows, ?_, ?_⟩
  case heading =>
    rw [blockHeading, String.toList_ofList]
    decide +kernel
  case rows =>
    rw [List.forall_mem_map]
    intro row hrow
    obtain ⟨hintent, hcmd⟩ := row_free projectType row hrow
    simp only [String.toList_append, List.mem_append, not_or]
    refine ⟨⟨⟨⟨?_, hintent⟩, ?_⟩, hcmd⟩, ?_⟩
    all_goals decide +kernel
  all_goals
    rw [String.toList_ofList]
    decide +kernel

theorem mem_intercalate {ch : Char} {sep : List Char} {ls : List (List Char)} (h : ch ∈ sep.intercalate ls) :
    ch ∈ sep ∨ ∃ l ∈ ls, ch ∈ l := by
  induction ls with
  | nil => cases h
  | cons l ls ih =>
    cases ls with
    | nil => exact Or.inr ⟨l, List.mem_cons_self, by rwa [List.intercalate_singleton] at h⟩
    | cons l' ls =>
      rw [List.intercalate_cons_cons, List.mem_append, List.mem_append] at h
      rcases h with (h | h) | h
      · exact Or.inr ⟨l, List.mem_cons_self, h⟩
      · exact Or.inl h
      · refine (ih h).imp_right ?_
        rintro ⟨l₁, hl₁, hch⟩
        exact ⟨l₁, List.mem_cons_of_mem l hl₁, hch⟩

theorem beginMarker_sentinelBegin : BeginMarker sentinelBegin.toList := by
  have hsplit : sentinelBegin = "<!-- code-graph-mcp:begin" ++ " v2 " ++ "-->" := by simp [sentinelBegin]
  have hword : BeginWord sentinelBegin.toList := by
    refine ⟨" v2 ".toList, ?_, by decide, by decide⟩
    rw [hsplit, String.toList_append, String.toList_append]
    rfl
  refine ⟨[], _, [], ?_, List.forall_mem_nil _, hword, List.forall_mem_nil _⟩
  rw [List.nil_append, List.append_nil]

/-- The block that is written is one whole block. -/
theorem wholeBlock_buildBlock (projectType : ProjectType) :
    wholeBlock ((buildBlock projectType).toList ++ ['\n']) = some ((buildBlock projectType).toList, ['\n']) := by
  obtain ⟨body, hbody⟩ : ∃ body, body = "\n".toList ++ ("\n".intercalate (blockBody projectType)).toList ++ "\n".toList :=
    ⟨_, rfl⟩
  have htext : (buildBlock projectType).toList = sentinelBegin.toList ++ body ++ sentinelEnd.toList := by
    simp [buildBlock, hbody]
  have hnl : "\n".toList = ['\n'] := rfl
  have hfree : '!' ∉ body := by
    rw [hbody, hnl, String.toList_intercalate, hnl, List.mem_append, List.mem_append]
    rintro ((h | h) | h)
    · revert h
      decide
    · rcases mem_intercalate h with h | ⟨l, hl, h⟩
      · revert h
        decide
      · obtain ⟨line, hline, rfl⟩ := List.mem_map.mp hl
        exact blockBody_free projectType line hline h
    · revert h
      decide
  have hstop : EndMarker sentinelEnd.toList := ⟨[], _, [], by simp, by simp, rfl, by simp⟩
  refine wholeBlock_eq_some_iff.mpr ⟨sentinelBegin.toList, body, sentinelEnd.toList, htext, ?_, ?_⟩
  · refine beginLine_eq_some_iff.mpr ⟨by simp [htext], beginMarker_sentinelBegin, ?_⟩
    rw [hbody, hnl]
    rfl
  · refine blockBody_of_free hfree ?_ hstop rfl
    rw [hbody, hnl, List.getLast?_append_of_ne_nil _ (by simp)]
    rfl

/-! ### A text that was adopted -/

theorem newlines_at_end (c : List Char) : ∃ n, c = trimNewlines c ++ List.replicate n '\n' := by
  refine ⟨(c.rtakeWhile (· = '\n')).length, ?_⟩
  have hrep : c.rtakeWhile (· = '\n') = List.replicate (c.rtakeWhile (· = '\n')).length '\n' := by
    rw [List.eq_replicate_iff]
    exact ⟨rfl, fun ch hch => by simpa using List.mem_rtakeWhile_imp hch⟩
  rw [← hrep]
  exact List.rdropWhile_append_rtakeWhile.symm

/-- Newlines at the end of a text are no part of a line that is taken. -/
theorem Free.newlines {q : List Char → Option Match} {Shape : List Char → Prop} (hq : Takes q Shape)
    (hnl : ∀ m, Shape m → '\n' ∉ m) {b : List Char} {n k : ℕ} (h : Free q (b ++ List.replicate n '\n')) :
    Free q (b ++ List.replicate k '\n') := by
  intro a s heq hstart
  rw [Option.eq_none_iff_forall_ne_some]
  rintro ⟨m, rest⟩ htake
  obtain ⟨rfl, hm, hend⟩ := hq.eq_some_iff.mp htake
  have hwithin : ∃ r, b = a ++ m ++ r ∧ rest = r ++ List.replicate k '\n' := by
    rw [← List.append_assoc] at heq
    obtain ⟨r, hr, hrest⟩ | ⟨y, hy, hrest⟩ := List.append_eq_append_iff.mp heq
    · cases r using List.reverseRecOn with
      | nil => exact ⟨[], by simpa using hr.symm, by simpa using hrest.symm⟩
      | append_singleton r ch =>
        -- the line would end in one of the newlines
        have hch : ch = '\n' := by
          have hmem : ch ∈ List.replicate k '\n' := by
            rw [hrest]
            simp
          exact List.eq_of_mem_replicate hmem
        obtain ⟨m', d, rfl⟩ : ∃ m' d, m = m' ++ [d] := by
          obtain ⟨d, w, rfl, -⟩ := hq.head hm
          exact ⟨_, _, (List.dropLast_append_getLast (List.cons_ne_nil d w)).symm⟩
        rw [← List.append_assoc, ← List.append_assoc] at hr
        obtain rfl := List.singleton_injective (List.append_inj' hr rfl).2
        exact absurd (by simp [hch]) (hnl _ hm)
    · exact ⟨y, hy, hrest⟩
  obtain ⟨r, rfl, rfl⟩ := hwithin
  have hold := h a (m ++ (r ++ List.replicate n '\n')) (by simp) hstart
  have hsome : q (m ++ (r ++ List.replicate n '\n')) = some (m, r ++ List.replicate n '\n') := by
    refine hq.eq_some_iff.mpr ⟨rfl, hm, ?_⟩
    cases r with
    | nil =>
      cases n with
      | zero => rfl
      | succ n => rfl
    | cons ch r => exact hend
  rw [hsome] at hold
  cases hold

theorem not_newline_beginMarker (m : List Char) (h : BeginMarker m) : '\n' ∉ m :=
  Open.not_newline ⟨[], by simpa using h⟩

theorem not_newline_endMarker (m : List Char) (h : EndMarker m) : '\n' ∉ m := by
  intro hmem
  have hfalse := h.line _ hmem
  cases hfalse

/-- What `adopt` writes in front of the block. -/
def lead (c : List Char) : List Char :=
  if trimNewlines c = [] then [] else trimNewlines c ++ ['\n', '\n']

theorem free_lead {q : List Char → Option Match} {Shape : List Char → Prop} (hq : Takes q Shape)
    (hnl : ∀ m, Shape m → '\n' ∉ m) (h : Free q c) : Free q (lead c) := by
  obtain ⟨n, hn⟩ := newlines_at_end c
  rw [hn] at h
  unfold lead
  split
  case isTrue hnil =>
    rw [hnil] at h
    exact h.newlines hq hnl (k := 0)
  case isFalse => exact h.newlines hq hnl (k := 2)

theorem rtakeWhile_trimNewlines : (trimNewlines c).rtakeWhile (· = '\n') = [] :=
  List.rtakeWhile_eq_nil_iff.mpr fun hne => List.rdropWhile_last_not _ _ hne

theorem rtakeWhile_lead : ((lead c).rtakeWhile (· = '\n')).length ≤ 2 := by
  unfold lead
  split
  case isTrue => simp
  case isFalse =>
    have htwo : trimNewlines c ++ ['\n', '\n'] = trimNewlines c ++ ['\n'] ++ ['\n'] := by simp
    rw [htwo, List.rtakeWhile_concat_pos _ _ _ (by simp), List.rtakeWhile_concat_pos _ _ _ (by simp),
      rtakeWhile_trimNewlines]
    simp

theorem trimNewlines_lead : trimNewlines (lead c) = trimNewlines c := by
  unfold lead
  split
  case isTrue hnil =>
    rw [hnil]
    rfl
  case isFalse =>
    have htwo : trimNewlines c ++ ['\n', '\n'] = trimNewlines c ++ ['\n'] ++ ['\n'] := by simp
    rw [htwo, trimNewlines, List.rdropWhile_concat_pos _ _ _ (by simp), List.rdropWhile_concat_pos _ _ _ (by simp)]
    exact List.rdropWhile_idempotent _ _

theorem isBlank_lead : isBlank (lead c) = isBlank c := by
  obtain ⟨n, hn⟩ := newlines_at_end c
  have hspace : jsSpace '\n' = true := by decide
  have hblank : isBlank c = (trimNewlines c).all jsSpace := by
    conv_lhs => rw [isBlank, hn]
    rw [List.all_append, List.all_replicate]
    simp [hspace]
  rw [hblank, isBlank, lead]
  split
  case isTrue hnil => rw [hnil]
  case isFalse => simp [hspace]

/-- The first pass takes out the block again, and leaves what `adopt` wrote in front of it. -/
theorem stripAndHealSeams_adopted (hbegin : Free beginLine c) (projectType : ProjectType) :
    stripAndHealSeams (lead c ++ ((buildBlock projectType).toList ++ ['\n'])) .wellFormed = lead c := by
  obtain ⟨block, hblock⟩ : ∃ block, block = (buildBlock projectType).toList := ⟨_, rfl⟩
  have htake := wholeBlock_buildBlock projectType
  rw [← hblock] at htake ⊢
  have hrun : LinePattern.wellFormed.run (block ++ ['\n']) = some (block ++ ['\n'], []) := by
    rw [LinePattern.run, show LinePattern.wellFormed.lines (block ++ ['\n']) = some (block, ['\n']) from htake]
    rfl
  have hfree := free_lead takesBegin not_newline_beginMarker hbegin
  -- before the block nothing is cut: what a line begins there ends in its own newline
  have hthrough : ∀ p q, lead c = p ++ q → q ≠ [] → StartsAt true p →
      LinePattern.wellFormed.run (q ++ (block ++ ['\n'])) = none := by
    intro p q hpq hq hp
    have hnl : '\n' ∈ q := by
      have hlast : (lead c).getLast? = some '\n' := by
        unfold lead
        rw [if_neg, List.getLast?_append_of_ne_nil _ (by simp)]
        · rfl
        · intro hnil
          rw [lead, if_pos hnil] at hpq
          exact hq (List.append_eq_nil_iff.mp hpq.symm).2
      rw [hpq, List.getLast?_append_of_ne_nil _ hq] at hlast
      exact List.mem_of_getLast? hlast
    have hstart : AtStart p := by
      cases p with
      | nil => exact Or.inl rfl
      | cons ch p => exact Or.inr ((startsAt_of_ne_nil (List.cons_ne_nil ch p)).mp hp)
    have hopen : ¬Open BeginMarker q := fun h => h.not_newline hnl
    have hnone : beginLine (q ++ (block ++ ['\n'])) = none := by
      rw [Option.eq_none_iff_forall_ne_some]
      rintro ⟨m, rest⟩ hsome
      obtain ⟨r, -, rfl, -, hm, hend⟩ := (takesBegin.eq_some_of_not_open hopen).mp hsome
      have hold := hfree p (m ++ r) hpq hstart
      rw [beginLine_eq_some_iff.mpr ⟨rfl, hm, hend⟩] at hold
      cases hold
    rw [LinePattern.run, show LinePattern.wellFormed.lines (q ++ (block ++ ['\n'])) = none by
      show wholeBlock (q ++ (block ++ ['\n'])) = none
      rw [wholeBlock, hnone]
      rfl]
    rfl
  -- the block begins a line
  have hflag : (if lead c = [] then true else endsLine (lead c)) = true := by
    split
    case isTrue => rfl
    case isFalse hne =>
      unfold lead at hne ⊢
      split at hne
      case isTrue => exact absurd rfl hne
      case isFalse hnil => rw [if_neg hnil, endsLine_append (by simp)]; rfl
  rw [stripAndHealSeams, stripFrom_through hthrough, hflag, List.nil_append]
  cases htext : block ++ ['\n'] with
  | nil => simp at htext
  | cons ch text =>
    rw [htext] at hrun
    rw [stripFrom_match hrun, if_neg, stripFrom_nil]
    -- two newlines at most stand before it, so the seam is healed as it is
    have hle : ((lead c).rtakeWhile (· = '\n')).length ≤ 2 := rtakeWhile_lead
    simpa using hle

theorem stripSentinelBlock_adopted (hbegin : Free beginLine c) (hend : Free endLine c) (projectType : ProjectType) :
    stripSentinelBlock (lead c ++ ((buildBlock projectType).toList ++ ['\n'])) = lead c := by
  have hbegin' := free_lead takesBegin not_newline_beginMarker hbegin
  have hend' := free_lead takesEnd not_newline_endMarker hend
  have hsame := stripSentinelBlock_of_free hbegin' hend'
  have hwhole : stripAndHealSeams (lead c) .wellFormed = lead c := stripAndHealSeams_of_free hbegin'.wholeBlock
  rw [stripSentinelBlock, stripAndHealSeams_adopted hbegin]
  rwa [stripSentinelBlock, hwhole] at hsame

/-- The user's text as it was, or with a block behind it. -/
structure Adopted (c : List Char) (symlink : Bool) (f : ClaudeMd) : Prop where
  symlink : f.symlink = symlink
  text : f.text = some c ∨ ∃ projectType, f.text = some (lead c ++ ((buildBlock projectType).toList ++ ['\n']))

theorem buildBlock_ne_nil (projectType : ProjectType) : (buildBlock projectType).toList ≠ [] :=
  (takes_wholeBlock (wholeBlock_buildBlock projectType)).2

/-- A text whose stripped form has the user's base gets the block behind that base. -/
theorem adopted_adopt {f : ClaudeMd} {symlink : Bool} (projectType : ProjectType) (hsymlink : f.symlink = symlink)
    (hbase : trimNewlines ((f.text.map stripSentinelBlock).getD []) = trimNewlines c)
    (hkeep : (buildBlock projectType).toList <:+: f.text.getD [] → Adopted c symlink f) :
    Adopted c symlink (adopt projectType f) := by
  rw [adopt]
  split
  case isTrue hinfix => exact hkeep hinfix
  case isFalse =>
    refine ⟨hsymlink, Or.inr ⟨projectType, ?_⟩⟩
    dsimp only
    rw [hbase, List.append_assoc]
    rfl

theorem Adopted.adopt {f : ClaudeMd} {symlink : Bool} (hbegin : Free beginLine c) (hend : Free endLine c)
    (h : Adopted c symlink f) (projectType : ProjectType) : Adopted c symlink (adopt projectType f) := by
  refine adopted_adopt projectType h.symlink ?_ fun _ => h
  rcases h.text with htext | ⟨projectType', htext⟩
  · rw [htext, Option.map_some, Option.getD_some, stripSentinelBlock_of_free hbegin hend]
  · rw [htext, Option.map_some, Option.getD_some, stripSentinelBlock_adopted hbegin hend, trimNewlines_lead]

theorem Adopted.adoptEach {f : ClaudeMd} {symlink : Bool} (hbegin : Free beginLine c) (hend : Free endLine c)
    (h : Adopted c symlink f) (types : List ProjectType) : Adopted c symlink (adoptEach types f) := by
  induction types generalizing f with
  | nil => exact h
  | cons projectType types ih => exact ih (h.adopt hbegin hend projectType)

/-- The first time, there may be no file. -/
theorem Adopted.of_text {f : ClaudeMd} (hbegin : Free beginLine c) (hend : Free endLine c) (hf : f.text.getD [] = c)
    (projectType : ProjectType) : Adopted c f.symlink (Adopt.adopt projectType f) := by
  refine adopted_adopt projectType rfl ?_ ?_
  · cases htext : f.text with
    | none =>
      rw [htext] at hf
      rw [← hf]
      rfl
    | some text =>
      rw [htext, Option.getD_some] at hf
      rw [Option.map_some, Option.getD_some, hf, stripSentinelBlock_of_free hbegin hend]
  · intro hinfix
    refine ⟨rfl, Or.inl ?_⟩
    cases htext : f.text with
    | none =>
      rw [htext, Option.getD_none, List.infix_nil] at hinfix
      exact absurd hinfix (buildBlock_ne_nil projectType)
    | some text =>
      rw [htext, Option.getD_some] at hf
      rw [hf]

theorem Adopted.unadopt {f : ClaudeMd} {symlink : Bool} (hbegin : Free beginLine c) (hend : Free endLine c)
    (h : Adopted c symlink f) :
    (∃ r, (unadopt f).text = some r ∧ trimNewlines r = trimNewlines c) ∨
      ((unadopt f).text = none ∧ isBlank c = true) := by
  rcases h.text with htext | ⟨projectType, htext⟩
  · refine Or.inl ⟨c, ?_, rfl⟩
    rw [Adopt.unadopt, htext]
    dsimp only
    rw [stripSentinelBlock_of_free hbegin hend, if_pos rfl, htext]
  · have hne : lead c ≠ lead c ++ ((buildBlock projectType).toList ++ ['\n']) := by simp
    rw [Adopt.unadopt, htext]
    dsimp only
    rw [stripSentinelBlock_adopted hbegin hend, if_neg hne]
    split
    case isTrue hblank =>
      rw [Bool.and_eq_true, isBlank_lead] at hblank
      exact Or.inr ⟨rfl, hblank.1⟩
    case isFalse => exact Or.inl ⟨lead c, rfl, trimNewlines_lead⟩

/-! ### The user's text is kept -/

theorem proseKept_of_unbroken (hc : Unbroken c) : ProseKept c := by
  obtain ⟨X, hX, hkept, hbegin, hend, -⟩ :=
    exists_stripSentinelBlock (Removable c) (block_removable hc) (begin_removable hc) end_removable
  have hbegin' := hbegin.free fun h => (takes_beginLine h).1
  have hend' := hend.free fun h => (takes_endLine h).1
  rw [hX] at hbegin' hend'
  refine ⟨⟨X, hkept.cut, hX⟩, noMarkerLine_of_free hbegin' hend', stripSentinelBlock_of_free hbegin' hend', ?_, ?_⟩
  · intro hmarker
    obtain ⟨hfree, hfree'⟩ := free_of_noMarkerLine hc hmarker
    exact stripSentinelBlock_of_free hfree hfree'
  · intro hmarker f projectType types hf
    obtain ⟨hfree, hfree'⟩ := free_of_noMarkerLine hc hmarker
    exact ((Adopted.of_text hfree hfree' hf projectType).adoptEach hfree hfree' types).unadopt hfree hfree'

/-! ### A broken begin marker costs text -/

theorem mem_of_place {U S V : List (Char × ℕ)} (h : c.zipIdx = U ++ S ++ V) {x : Char × ℕ} (hx : x ∈ c.zipIdx)
    (hle : (chars U).length ≤ x.2) (hlt : x.2 < (chars (U ++ S)).length) : x ∈ S := by
  rw [h, List.mem_append, List.mem_append] at hx
  rcases hx with (hx | hx) | hx
  · have hplace := place_of_mem (U := []) (S := U) (V := S ++ V) (by rw [h]; simp) hx
    rw [List.nil_append] at hplace
    omega
  · exact hx
  · have hplace := place_of_mem (U := U ++ S) (S := V) (V := []) (by rw [h]; simp) hx
    omega

theorem exists_places {a s b : List Char} (h : c = a ++ s ++ b) :
    ∃ U S V, c.zipIdx = U ++ S ++ V ∧ chars U = a ∧ chars S = s ∧ chars V = b := by
  have hchars : chars c.zipIdx = a ++ s ++ b := chars_zipIdx.trans h
  obtain ⟨US, V, hT, hUS, rfl⟩ := chars_eq_append_iff.mp hchars
  obtain ⟨U, S, rfl, rfl, rfl⟩ := chars_eq_append_iff.mp hUS
  exact ⟨U, S, V, hT, rfl, rfl, rfl⟩

/-- Whatever may be taken out is taken out. -/
theorem gone_of_removable {X : List (Char × ℕ)}
    (hmarkers : ∀ S, IsMarker (chars S) → StandsIn S c.zipIdx → ∀ x ∈ S, x ∉ X)
    (hblocks : ∀ U G V, c.zipIdx = U ++ G ++ V → AtStart (chars U) →
      wholeBlock (chars G ++ chars V) = some (chars G, chars V) → ∀ x ∈ G, x ∉ X)
    {x : Char × ℕ} (hx : x ∈ c.zipIdx) (hremovable : Removable c x.2) : x ∉ X := by
  cases hremovable with
  | @marker a s b hline hs hle hlt =>
    obtain ⟨U, S, V, hT, rfl, rfl, rfl⟩ := exists_places hline.text
    rw [← chars_append] at hlt
    exact hmarkers S hs ⟨U, V, hT, hline.start, hline.lineEnd⟩ x (mem_of_place hT hx hle hlt)
  | @between a start body stop b hline hs hbody hle hlt =>
    have htext : c = a ++ (start ++ body ++ stop) ++ b := by rw [hline.text]; simp
    obtain ⟨U, G, V, hT, rfl, hG, rfl⟩ := exists_places htext
    have htake : wholeBlock (chars G ++ chars V) = some (chars G, chars V) := by
      refine wholeBlock_eq_some_iff.mpr ⟨start, body, stop, hG, ?_, hbody⟩
      refine beginLine_eq_some_iff.mpr ⟨by rw [hG]; simp, hs, hline.lineEnd⟩
    refine hblocks U G V hT hline.start htake x (mem_of_place hT hx ?_ ?_)
    · rw [List.length_append] at hle
      omega
    · rw [chars_append, hG]
      simp only [List.length_append] at hlt ⊢
      omega

/-- The first character behind the blanks of a begin marker that is no line may not be taken out. -/
theorem not_removable_of_broken {a lead word trail b : List Char} {ch : Char}
    (htext : c = a ++ (lead ++ word ++ trail) ++ b) (hstart : AtStart a) (hlead : ∀ ch ∈ lead, blank ch = true)
    (hword : BeginWord word) (htrail : ∀ ch ∈ trail, blank ch = true) (hend : lineEnd b = true)
    (hch : ch ∈ lead ++ word ++ trail) (hbroken : lineTerminator ch = true) : ¬Removable c (a ++ lead).length := by
  have hmarker : BeginMarker (lead ++ word ++ trail) := ⟨lead, word, trail, rfl, hlead, hword, htrail⟩
  intro hremovable
  cases hremovable with
  -- a marker line around the word begins where ours does, and a marker line has no break in it
  | @marker a' s b' hline hs hle hlt =>
    have heq : a' ++ (s ++ b') = a ++ (lead ++ word ++ trail ++ b) := by
      rw [← List.append_assoc, ← hline.text, htext, List.append_assoc]
    simp only [List.length_append] at hle hlt
    have hprefix : ∀ {y l r r' : List Char}, endsLine y = true → y ++ r = l ++ r' → y.length ≤ l.length →
        ∃ d ∈ l, lineTerminator d = true := by
      intro y l r r' hy hyl hlen
      obtain ⟨y', d, rfl, hd⟩ := endsLine_eq_true_iff.mp hy
      obtain ⟨e, rfl⟩ := List.prefix_of_prefix_length_le ⟨r, hyl⟩ ⟨r', rfl⟩ hlen
      exact ⟨d, by simp, hd⟩
    have hsame : a' = a := by
      obtain ⟨y, hy, hrest⟩ | ⟨y, hy, hrest⟩ := List.append_eq_append_iff.mp heq
      · by_cases hne : y = []
        · rw [hy, hne, List.append_nil]
        · rw [hy, atStart_append hne] at hstart
          obtain ⟨d, hd, hdterm⟩ := hprefix hstart hrest.symm (by rw [hy, List.length_append] at hlt; omega)
          rw [hline.line d hd] at hdterm
          cases hdterm
      · by_cases hne : y = []
        · rw [hy, hne, List.append_nil]
        · have hstart' := hline.start
          rw [hy, atStart_append hne] at hstart'
          have hrest' : y ++ (s ++ b') = lead ++ (word ++ (trail ++ b)) := by rw [← hrest]; simp
          obtain ⟨d, hd, hdterm⟩ := hprefix hstart' hrest' (by rw [hy, List.length_append] at hle; omega)
          rw [not_lineTerminator_of_blank (hlead d hd)] at hdterm
          cases hdterm
    subst hsame
    have hboth := List.append_cancel_left heq
    rcases hs with hs | hs
    · have htake := beginLine_eq_some_iff.mpr ⟨rfl, hs, hline.lineEnd⟩
      rw [hboth, beginLine_eq_some_iff.mpr ⟨rfl, hmarker, hend⟩] at htake
      obtain ⟨rfl, -⟩ := Prod.mk.inj (Option.some.inj htake)
      rw [hline.line ch hch] at hbroken
      cases hbroken
    · exact hmarker.ne_end hs hboth.symm
  -- a body around the word would have a begin marker in it
  | @between a' start body stop b' hline hs hbody hle hlt =>
    have heq : (a' ++ start) ++ (body ++ (stop ++ b')) = (a ++ lead) ++ (word ++ (trail ++ b)) := by
      rw [← hline.text, htext]
      simp
    obtain ⟨p, hp⟩ := List.prefix_of_prefix_length_le ⟨_, heq⟩ ⟨_, rfl⟩ hle
    rw [← hp, List.append_assoc _ p] at heq
    have hrest := List.append_cancel_left heq
    rw [← hp] at hlt
    simp only [List.length_append] at hlt
    obtain ⟨q, rfl⟩ := List.prefix_of_prefix_length_le ⟨_, hrest.symm⟩ ⟨_, rfl⟩ (show p.length ≤ body.length by omega)
    have hq : q ≠ [] := by
      rintro rfl
      simp at hlt
    rw [List.append_assoc] at hrest
    have hnone := hbody.no_begin p q rfl hq
    rw [List.append_cancel_left hrest, beginSrc_eq_some_iff.mpr ⟨rfl, hword⟩] at hnone
    cases hnone

/-- Were only what is removable taken out of a broken marker, more characters would be left. -/
theorem unbroken_of_removes (h : ∃ X, Cut (fun x => x.1 = '\n') (fun x => Removable c x.2) c.zipIdx X ∧
    X.map Prod.fst = stripSentinelBlock c) : Unbroken c := by
  classical
  obtain ⟨Y, hY, htext⟩ := h
  intro a s b heq hstart hs hend ch hch
  by_contra hbroken
  rw [Bool.not_eq_false] at hbroken
  obtain ⟨X, hX, hkept, -, -, hmarkers, hblocks⟩ := exists_stripSentinelBlock (c := c) (fun _ => True)
    (fun _ _ _ _ _ _ _ _ => trivial) (fun _ _ _ _ _ _ _ _ => trivial) (fun _ _ _ _ _ _ _ _ => trivial)
  obtain ⟨lead, word, trail, rfl, hlead, hword, htrail⟩ := hs
  have hmarker : BeginMarker (lead ++ word ++ trail) := ⟨lead, word, trail, rfl, hlead, hword, htrail⟩
  have hnot := not_removable_of_broken heq hstart hlead hword htrail hend hch hbroken
  obtain ⟨U, S, V, hT, rfl, hS, rfl⟩ := exists_places heq
  -- the character that had to stay, and that is gone
  have hpos : 0 < word.length := by
    obtain ⟨w, rfl, -⟩ := hword
    simp only [List.length_append, List.length_cons]
    omega
  have hlt : (chars U ++ lead).length < c.zipIdx.length := by
    rw [List.length_zipIdx, heq]
    simp only [List.length_append]
    omega
  obtain ⟨x, hx, hplace⟩ : ∃ x ∈ c.zipIdx, x.2 = (chars U ++ lead).length := by
    refine ⟨_, List.getElem_mem hlt, ?_⟩
    rw [List.getElem_zipIdx]
    simp
  have hxS : x ∈ S := by
    refine mem_of_place hT hx ?_ ?_
    all_goals
      rw [hplace]
      simp only [chars_append, hS, List.length_append]
      omega
  have hgone : x ∉ X := hmarkers S (by rw [hS]; exact Or.inl hmarker) ⟨U, V, hT, hstart, hend⟩ x hxS
  have hsolid : x.1 ≠ '\n' := by
    intro hnl
    refine not_newline_beginMarker _ hmarker ?_
    rw [← hnl, ← hS]
    exact List.mem_map_of_mem hxS
  -- the characters that had to stay are no more than those that did
  let stays (x : Char × ℕ) : Bool := decide (x.1 ≠ '\n' ∧ ¬Removable c x.2)
  let solid (ch : Char) : Bool := decide (ch ≠ '\n')
  have hkeep : c.zipIdx.filter stays = Y.filter stays := by
    refine hY.filter_eq fun x hx => ?_
    have hx : x.1 ≠ '\n' ∧ ¬Removable c x.2 := of_decide_eq_true hx
    tauto
  have hsolids : ∀ Z : List (Char × ℕ), (Z.filter (solid ∘ Prod.fst)).length = ((chars Z).filter solid).length := by
    intro Z
    rw [chars, List.filter_map, List.length_map]
  have hX' : X.filter stays = X.filter (solid ∘ Prod.fst) := by
    refine List.filter_congr fun y hy => ?_
    have hyR : ¬Removable c y.2 :=
      fun h => gone_of_removable hmarkers hblocks (hkept.cut.sublist.subset hy) h hy
    simp [stays, solid, hyR]
  have hle : (c.zipIdx.filter stays).length ≤ (X.filter stays).length := by
    calc (c.zipIdx.filter stays).length = (Y.filter stays).length := by rw [hkeep]
      _ ≤ (Y.filter (solid ∘ Prod.fst)).length := by
        refine (List.monotone_filter_right Y fun y hy => ?_).length_le
        have hy : y.1 ≠ '\n' ∧ ¬Removable c y.2 := of_decide_eq_true hy
        exact decide_eq_true hy.1
      _ = (X.filter (solid ∘ Prod.fst)).length := by
        rw [hsolids, hsolids, hX, ← htext]
        rfl
      _ = (X.filter stays).length := by rw [hX']
  have hsame := (hkept.cut.sublist.filter stays).eq_of_length_le hle
  have hmem : x ∈ c.zipIdx.filter stays :=
    List.mem_filter.mpr ⟨hx, decide_eq_true ⟨hsolid, by rwa [hplace]⟩⟩
  rw [← hsame] at hmem
  exact hgone (List.mem_filter.mp hmem).1

/-- No marker stands in a text that was stripped. -/
theorem free_stripSentinelBlock (c : List Char) :
    Free beginLine (stripSentinelBlock c) ∧ Free endLine (stripSentinelBlock c) := by
  obtain ⟨X, hX, -, hbegin, hend, -⟩ := exists_stripSentinelBlock (c := c) (fun _ => True)
    (fun _ _ _ _ _ _ _ _ => trivial) (fun _ _ _ _ _ _ _ _ => trivial) (fun _ _ _ _ _ _ _ _ => trivial)
  rw [← hX]
  exact ⟨hbegin.free fun h => (takes_beginLine h).1, hend.free fun h => (takes_endLine h).1⟩

theorem proseKept_iff (c : List Char) : ProseKept c ↔ Unbroken c :=
  ⟨fun h => unbroken_of_removes h.removes, proseKept_of_unbroken⟩

/-- What stands between a marker that was cut short and the next end of a comment. -/
def cutShortTail : List Char :=
  [' ', 'v', '2', ' ', '-', '-', '\r', 'p', 'r', 'o', 's', 'e', ' ']

/-- A text with carriage returns for line ends: one line of it is a begin marker that was cut short, and the prose behind
it ends with `-->`. -/
def cutShort : List Char :=
  ['k', 'e', 'e', 'p', '\r'] ++ (beginText ++ cutShortTail ++ ['-', '-', '>'])

theorem beginMarker_cutShort : BeginMarker (beginText ++ cutShortTail ++ ['-', '-', '>']) :=
  ⟨[], _, [], by simp, by simp, ⟨cutShortTail, rfl, by decide, by decide⟩, by simp⟩

/-- A text with one `d` in it is split there in one way. -/
theorem split_at_once {d : Char} {p r p' r' : List Char} (hp : d ∉ p) (hr : d ∉ r) (h : p ++ d :: r = p' ++ d :: r') :
    p = p' ∧ r = r' := by
  obtain ⟨y, rfl, hy⟩ | ⟨y, rfl, hy⟩ := List.append_eq_append_iff.mp h
  · cases y with
    | nil =>
      obtain ⟨-, hr'⟩ := List.cons_eq_cons.mp hy
      exact ⟨by simp, hr'⟩
    | cons e y =>
      obtain ⟨-, rfl⟩ := List.cons_eq_cons.mp hy
      exact absurd (by simp) hr
  · cases y with
    | nil =>
      obtain ⟨-, hr'⟩ := List.cons_eq_cons.mp hy
      exact ⟨by simp, hr'.symm⟩
    | cons e y =>
      obtain ⟨rfl, -⟩ := List.cons_eq_cons.mp hy
      exact absurd (by simp) hp

theorem IsMarker.reaches (h : IsMarker s) : ∃ front back, s = front ++ '<' :: back ∧ '>' ∈ back := by
  have hbegin : beginText = '<' :: beginText.tail := rfl
  have hend : sentinelEnd.toList = '<' :: sentinelEnd.toList.tail := rfl
  have hclose : '>' ∈ sentinelEnd.toList.tail := by decide +kernel
  rcases h with ⟨lead, _, trail, rfl, -, ⟨w, rfl, -, -⟩, -⟩ | ⟨lead, _, trail, rfl, -, rfl, -⟩
  · refine ⟨lead, beginText.tail ++ w ++ ['-', '-', '>'] ++ trail, ?_, by simp⟩
    conv_lhs => rw [hbegin]
    simp
  · refine ⟨lead, sentinelEnd.toList.tail ++ trail, ?_, List.mem_append_left trail hclose⟩
    conv_lhs => rw [hend]
    simp

theorem noMarkerLine_cutShort : NoMarkerLine cutShort := by
  intro a s b hline hs
  -- a marker reaches from a `<` to a `>`; behind the only `<` of the text its line ends before there is a `>`
  obtain ⟨front, back, rfl, hgt⟩ := hs.reaches
  have hbegin : beginText = '<' :: beginText.tail := rfl
  have htail : ∀ ch ∈ beginText.tail, ch ≠ '<' ∧ ch ≠ '>' :=
    List.all_iff_forall_prop.mp (by decide +kernel)
  have htext : ['k', 'e', 'e', 'p', '\r'] ++ '<' :: (beginText.tail ++ cutShortTail ++ ['-', '-', '>']) =
      (a ++ front) ++ '<' :: (back ++ b) := by
    calc _ = cutShort := by rw [cutShort, hbegin]; simp
      _ = (a ++ front) ++ '<' :: (back ++ b) := by rw [hline.text]; simp
  have honce : '<' ∉ beginText.tail ++ cutShortTail ++ ['-', '-', '>'] := by
    rw [List.mem_append, List.mem_append]
    rintro ((h | h) | h)
    · exact (htail _ h).1 rfl
    · revert h
      decide
    · revert h
      decide
  obtain ⟨-, hrest⟩ := split_at_once (by decide) honce htext
  have hcut : cutShortTail = [' ', 'v', '2', ' ', '-', '-'] ++ '\r' :: ['p', 'r', 'o', 's', 'e', ' '] := rfl
  have hsplit : (beginText.tail ++ [' ', 'v', '2', ' ', '-', '-']) ++
      ('\r' :: ['p', 'r', 'o', 's', 'e', ' '] ++ ['-', '-', '>']) = back ++ b := by
    rw [← hrest, hcut]
    simp
  obtain ⟨y, rfl, hy⟩ | ⟨y, hy, -⟩ := List.append_eq_append_iff.mp hsplit
  · cases y with
    | nil =>
      rw [List.append_nil, List.mem_append] at hgt
      rcases hgt with h | h
      · exact (htail _ h).2 rfl
      · revert h
        decide
    | cons d y =>
      obtain ⟨rfl, -⟩ := List.cons_eq_cons.mp hy
      have hfalse := hline.line '\r' (by simp)
      cases hfalse
  · have hmem : '>' ∈ beginText.tail ++ [' ', 'v', '2', ' ', '-', '-'] := by
      rw [hy]
      exact List.mem_append_left y hgt
    rcases List.mem_append.mp hmem with h | h
    · exact (htail _ h).2 rfl
    · revert h
      decide

theorem cutShort_costs_text :
    NoMarkerLine cutShort ∧ stripSentinelBlock cutShort ≠ cutShort ∧ ¬ProseKept cutShort := by
  have hne : stripSentinelBlock cutShort ≠ cutShort := by
    intro h
    have hfree := (free_stripSentinelBlock cutShort).1
    rw [h] at hfree
    have htake : beginLine (beginText ++ cutShortTail ++ ['-', '-', '>']) =
        some (beginText ++ cutShortTail ++ ['-', '-', '>'], []) :=
      beginLine_eq_some_iff.mpr ⟨by simp, beginMarker_cutShort, rfl⟩
    have hnone := hfree ['k', 'e', 'e', 'p', '\r'] (beginText ++ cutShortTail ++ ['-', '-', '>']) rfl (Or.inr (by decide))
    rw [htake] at hnone
    cases hnone
  exact ⟨noMarkerLine_cutShort, hne, fun h => hne (h.untouched noMarkerLine_cutShort)⟩

end CodeGraph.Plugin.Adopt
