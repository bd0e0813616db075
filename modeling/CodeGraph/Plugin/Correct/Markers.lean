import Mathlib.Data.Bool.AllAny
import CodeGraph.Plugin.Adopt
import CodeGraph.Lib.Cut

/-!
# Which lines the patterns of `adopt.js` match

`beginLine` and `endLine` take exactly the texts of `BeginMarker` and `EndMarker` that stand between two line ends. A
begin marker may run over lone carriage returns and Unicode line separators, which end a line for `^` and `$`. Once a
marker is taken out of a text, every marker of the new text stood in the old one, provided that no begin marker was left
open in front of it (`Stands.cut`).
-/

namespace CodeGraph.Plugin.Adopt

open CodeGraph.Lib

variable {text m rest s t u v : List Char}

/-- A line begins behind this text. -/
def AtStart (text : List Char) : Prop :=
  text = [] ∨ endsLine text = true

/-! ### Markers -/

/-- A text that `SENTINEL_BEGIN_SRC` matches. -/
def BeginWord (word : List Char) : Prop :=
  ∃ w, word = beginText ++ w ++ ['-', '-', '>'] ∧ '>' ∉ w ∧ '\n' ∉ w

/-- A word alone between blanks. -/
def Alone (Word : List Char → Prop) (m : List Char) : Prop :=
  ∃ lead word trail, m = lead ++ word ++ trail ∧ (∀ c ∈ lead, blank c = true) ∧ Word word ∧ ∀ c ∈ trail, blank c = true

def BeginMarker : List Char → Prop :=
  Alone BeginWord

def EndMarker : List Char → Prop :=
  Alone (· = sentinelEnd.toList)

def IsMarker (m : List Char) : Prop :=
  BeginMarker m ∨ EndMarker m

theorem commentClose_of_free {w : List Char} (h : '>' ∉ w) (hn : '\n' ∉ w) :
    commentClose (w ++ ['-', '-', '>'] ++ rest) = some (w ++ ['-', '-', '>'], rest) := by
  induction w with
  | nil => rfl
  | cons c w ih =>
    rw [List.mem_cons, not_or] at h hn
    -- the closing of the comment begins behind `w`: its third character would be one of `w` otherwise
    have hne : ∀ rest', c = '-' → w ++ ['-', '-', '>'] ++ rest = '-' :: '>' :: rest' → False := by
      intro rest' _ heq
      match w, h with
      | [], _ => simp at heq
      | [_], _ => simp at heq
      | _ :: d :: _, h => simp_all
    rw [List.cons_append, List.cons_append, commentClose, if_neg, ih h.2 hn.2]
    · rfl
    · simp [Ne.symm h.1, Ne.symm hn.1]
    · exact hne

theorem free_of_commentClose (h : commentClose text = some (m, rest)) :
    ∃ w, m = w ++ ['-', '-', '>'] ∧ '>' ∉ w ∧ '\n' ∉ w := by
  induction text using commentClose.induct generalizing m rest with
  | case1 rest' =>
    rw [commentClose] at h
    cases h
    exact ⟨[], rfl, by simp, by simp⟩
  | case2 c text hne hc =>
    rw [commentClose, if_pos hc] at h
    · cases h
    · exact hne
  | case3 c text hne hc ih =>
    rw [commentClose, if_neg hc] at h
    · obtain ⟨⟨m', rest'⟩, hclose, heq⟩ := Option.map_eq_some_iff.mp h
      cases heq
      obtain ⟨w, rfl, hw, hn⟩ := ih hclose
      simp only [Bool.or_eq_true, decide_eq_true_eq, not_or] at hc
      exact ⟨c :: w, rfl, by simp [hw, Ne.symm hc.1], by simp [hn, Ne.symm hc.2]⟩
    · exact hne
  | case4 => cases h

theorem literal_eq_some_iff {word : List Char} : literal word text = some (m, rest) ↔ text = m ++ rest ∧ m = word := by
  constructor
  · intro h
    obtain ⟨hm, htext⟩ := takes_literal h
    exact ⟨htext, hm⟩
  · rintro ⟨rfl, rfl⟩
    rw [literal, if_pos (List.prefix_append _ _), List.drop_left]

theorem beginSrc_eq_some_iff : beginSrc text = some (m, rest) ↔ text = m ++ rest ∧ BeginWord m := by
  constructor
  · intro h
    refine ⟨(takes_beginSrc h).1, ?_⟩
    obtain ⟨⟨word, text'⟩, hword, h⟩ := Option.bind_eq_some_iff.mp h
    obtain ⟨⟨close, rest'⟩, hclose, heq⟩ := Option.map_eq_some_iff.mp h
    cases heq
    obtain ⟨rfl, -⟩ := takes_literal hword
    obtain ⟨w, rfl, hw, hn⟩ := free_of_commentClose hclose
    exact ⟨w, by simp, hw, hn⟩
  · rintro ⟨rfl, w, rfl, hw, hn⟩
    have hword : literal beginText (beginText ++ w ++ ['-', '-', '>'] ++ rest) =
        some (beginText, w ++ ['-', '-', '>'] ++ rest) := literal_eq_some_iff.mpr ⟨by simp, rfl⟩
    rw [beginSrc, hword, Option.bind_some]
    dsimp only
    rw [commentClose_of_free hw hn, Option.map_some, List.append_assoc beginText]

theorem dropWhile_of_lineEnd (h : lineEnd rest = true) : rest.dropWhile blank = rest ∧ rest.takeWhile blank = [] := by
  cases rest with
  | nil => exact ⟨rfl, rfl⟩
  | cons d rest =>
    have hd : blank d = false := by
      simp only [lineEnd, lineTerminator, Bool.or_eq_true, decide_eq_true_eq] at h
      rcases h with ((rfl | rfl) | rfl) | rfl <;> decide
    exact ⟨List.dropWhile_cons_of_neg (by simp [hd]), List.takeWhile_cons_of_neg (by simp [hd])⟩

/-- A word that does not begin with a blank, alone up to the end of its line. -/
theorem aloneOnLine_eq_some_iff {marker : List Char → Option Match} {Word : List Char → Prop}
    (hmarker : ∀ {text m rest}, marker text = some (m, rest) ↔ text = m ++ rest ∧ Word m)
    (hhead : ∀ {word}, Word word → ∃ c w, word = c :: w ∧ blank c = false) :
    aloneOnLine marker text = some (m, rest) ↔ text = m ++ rest ∧ Alone Word m ∧ lineEnd rest = true := by
  constructor
  · intro h
    obtain ⟨⟨word, text'⟩, hword, h⟩ := Option.bind_eq_some_iff.mp h
    dsimp only at h
    split at h
    case isFalse => cases h
    case isTrue hend =>
      cases h
      obtain ⟨htext, hword⟩ := hmarker.mp hword
      refine ⟨?_, ⟨_, word, _, rfl, ?_, hword, ?_⟩, hend⟩
      · rw [List.append_assoc, List.append_assoc, List.takeWhile_append_dropWhile, ← htext,
          List.takeWhile_append_dropWhile]
      · exact fun c hc => List.mem_takeWhile_imp hc
      · exact fun c hc => List.mem_takeWhile_imp hc
  · rintro ⟨rfl, ⟨lead, word, trail, rfl, hlead, hword, htrail⟩, hend⟩
    obtain ⟨c, w, rfl, hc⟩ := hhead hword
    -- the word begins with no blank, so the blanks before it are taken whole
    have hdrop : (lead ++ c :: w ++ trail ++ rest).dropWhile blank = c :: w ++ (trail ++ rest) := by
      rw [List.append_assoc, List.append_assoc, List.dropWhile_append_of_pos hlead, List.cons_append,
        List.dropWhile_cons_of_neg (by simp [hc])]
    have htake : (lead ++ c :: w ++ trail ++ rest).takeWhile blank = lead := by
      rw [List.append_assoc, List.append_assoc, List.takeWhile_append_of_pos hlead, List.cons_append,
        List.takeWhile_cons_of_neg (by simp [hc]), List.append_nil]
    have hrest := dropWhile_of_lineEnd hend
    rw [aloneOnLine, hdrop, hmarker.mpr ⟨rfl, hword⟩, Option.bind_some]
    dsimp only
    rw [List.dropWhile_append_of_pos htrail, List.takeWhile_append_of_pos htrail, hrest.1, hrest.2, if_pos hend, htake,
      List.append_nil]

theorem beginLine_eq_some_iff :
    beginLine text = some (m, rest) ↔ text = m ++ rest ∧ BeginMarker m ∧ lineEnd rest = true := by
  refine aloneOnLine_eq_some_iff beginSrc_eq_some_iff ?_
  rintro _ ⟨w, rfl, -, -⟩
  exact ⟨'<', _, rfl, by decide⟩

theorem endLine_eq_some_iff :
    endLine text = some (m, rest) ↔ text = m ++ rest ∧ EndMarker m ∧ lineEnd rest = true := by
  refine aloneOnLine_eq_some_iff literal_eq_some_iff ?_
  rintro _ rfl
  exact ⟨'<', sentinelEnd.toList.tail, by decide, by decide⟩

/-! ### Line ends -/

theorem endsLine_append (h : t ≠ []) : endsLine (s ++ t) = endsLine t := by
  rw [endsLine, List.getLast?_append_of_ne_nil _ h, endsLine]

theorem atStart_append (h : t ≠ []) : AtStart (s ++ t) ↔ endsLine t = true := by
  simp [AtStart, h, endsLine_append h]

theorem endsLine_eq_true_iff : endsLine s = true ↔ ∃ s' c, s = s' ++ [c] ∧ lineTerminator c = true := by
  constructor
  · intro h
    cases s using List.reverseRecOn with
    | nil => cases h
    | append_singleton s c =>
      refine ⟨s, c, rfl, ?_⟩
      rwa [endsLine_append (by simp)] at h
  · rintro ⟨s', c, rfl, hc⟩
    rw [endsLine_append (by simp)]
    exact hc

theorem not_lineTerminator_of_blank {c : Char} (h : blank c = true) : lineTerminator c = false := by
  simp only [blank, Bool.or_eq_true, decide_eq_true_eq] at h
  rcases h with rfl | rfl <;> decide

theorem lineTerminator_beginText : ∀ c ∈ beginText, lineTerminator c = false :=
  List.all_iff_forall_prop.mp (by decide +kernel)

theorem beginText_free : ∀ c ∈ beginText, c ≠ '>' ∧ c ≠ '\n' :=
  List.all_iff_forall_prop.mp (by decide +kernel)

theorem lineTerminator_sentinelEnd : ∀ c ∈ sentinelEnd.toList, lineTerminator c = false :=
  List.all_iff_forall_prop.mp (by decide +kernel)

/-! ### Open markers -/

/-- A text that can still become a marker. -/
def Open (Shape : List Char → Prop) (s : List Char) : Prop :=
  ∃ t, Shape (s ++ t)

/-- The rest of a comment, with blanks behind it. -/
def Closing (m : List Char) : Prop :=
  ∃ w trail, m = w ++ ['-', '-', '>'] ++ trail ∧ '>' ∉ w ∧ '\n' ∉ w ∧ ∀ c ∈ trail, blank c = true

theorem BeginMarker.closing (h : BeginMarker m) : Closing m := by
  obtain ⟨lead, _, trail, rfl, hlead, ⟨w, rfl, hw, hn⟩, htrail⟩ := h
  have hfree : ∀ c ∈ lead ++ beginText, c ≠ '>' ∧ c ≠ '\n' := by
    intro c hc
    rcases List.mem_append.mp hc with hc | hc
    · constructor <;> rintro rfl <;> exact absurd (hlead _ hc) (by decide)
    · exact beginText_free c hc
  refine ⟨lead ++ beginText ++ w, trail, by simp, ?_, ?_, htrail⟩
  · rw [List.mem_append]
    rintro (hc | hc)
    exacts [(hfree _ hc).1 rfl, hw hc]
  · rw [List.mem_append]
    rintro (hc | hc)
    exacts [(hfree _ hc).2 rfl, hn hc]

theorem EndMarker.closing (h : EndMarker m) : Closing m := by
  obtain ⟨lead, _, trail, rfl, hlead, rfl, htrail⟩ := h
  obtain ⟨w, hword, hfree⟩ : ∃ w, sentinelEnd.toList = w ++ ['-', '-', '>'] ∧ ∀ c ∈ w, c ≠ '>' ∧ c ≠ '\n' :=
    ⟨sentinelEnd.toList.dropLast.dropLast.dropLast, by decide +kernel, List.all_iff_forall_prop.mp (by decide +kernel)⟩
  refine ⟨lead ++ w, trail, by simp [hword], ?_, ?_, htrail⟩
  · rw [List.mem_append]
    rintro (hc | hc)
    exacts [absurd (hlead _ hc) (by decide), (hfree _ hc).1 rfl]
  · rw [List.mem_append]
    rintro (hc | hc)
    exacts [absurd (hlead _ hc) (by decide), (hfree _ hc).2 rfl]

/-- The first `>` closes a comment. -/
theorem Closing.unique {a b : List Char} (hs : Closing s) (ht : Closing t) (heq : s ++ a = t ++ b)
    (ha : lineEnd a = true) (hb : lineEnd b = true) : s = t ∧ a = b := by
  obtain ⟨w, trail, rfl, hw, hn, htrail⟩ := hs
  obtain ⟨w', trail', rfl, hw', hn', htrail'⟩ := ht
  have heq' : w ++ ['-', '-', '>'] ++ (trail ++ a) = w' ++ ['-', '-', '>'] ++ (trail' ++ b) := by simpa using heq
  have hclose : commentClose (w ++ ['-', '-', '>'] ++ (trail ++ a)) = some (w ++ ['-', '-', '>'], trail ++ a) :=
    commentClose_of_free hw hn
  rw [heq', commentClose_of_free hw' hn'] at hclose
  obtain ⟨hword, hrest⟩ := Prod.mk.inj (Option.some.inj hclose)
  have hdrop := congrArg (List.dropWhile blank) hrest
  rw [List.dropWhile_append_of_pos htrail, List.dropWhile_append_of_pos htrail', (dropWhile_of_lineEnd ha).1,
    (dropWhile_of_lineEnd hb).1] at hdrop
  subst hdrop
  rw [hword, List.append_cancel_right hrest]
  exact ⟨rfl, rfl⟩

/-- Behind a line end in it, the rest of a comment is the rest of a comment. -/
theorem Closing.of_append (h : Closing (s ++ t)) (hs : endsLine s = true) : Closing t := by
  obtain ⟨w, trail, heq, hw, hn, htrail⟩ := h
  obtain ⟨s', c, rfl, hc⟩ := endsLine_eq_true_iff.mp hs
  rw [List.append_assoc w] at heq
  obtain ⟨w', rfl, rfl⟩ | ⟨y, hy, htail⟩ := List.append_eq_append_iff.mp heq
  · rw [List.mem_append, not_or] at hw hn
    exact ⟨w', trail, by simp, hw.2, hn.2, htrail⟩
  · cases y using List.reverseRecOn with
    | nil => exact ⟨[], trail, by simpa using htail.symm, by simp, by simp, htrail⟩
    | append_singleton y d =>
      rw [← List.append_assoc] at hy
      obtain rfl := List.singleton_injective (List.append_inj' hy rfl).2
      have hmem : c ∈ ['-', '-', '>'] ++ trail := by
        rw [htail]
        simp
      rcases List.mem_append.mp hmem with hmem | hmem
      · have hclose : ∀ e ∈ ['-', '-', '>'], lineTerminator e = false := List.all_iff_forall_prop.mp (by decide)
        rw [hclose c hmem] at hc
        cases hc
      · rw [not_lineTerminator_of_blank (htrail c hmem)] at hc
        cases hc

theorem beginText_split : beginText = "<!-- code-graph-mcp:".toList ++ ['b', 'e', 'g', 'i', 'n'] := by
  have hlast : "begin".toList = ['b', 'e', 'g', 'i', 'n'] := String.toList_ofList
  have happend : "<!-- code-graph-mcp:begin" = "<!-- code-graph-mcp:" ++ "begin" := by simp
  calc beginText = ("<!-- code-graph-mcp:" ++ "begin").toList := congrArg String.toList happend
    _ = "<!-- code-graph-mcp:".toList ++ ['b', 'e', 'g', 'i', 'n'] := by rw [String.toList_append, hlast]

theorem sentinelEnd_split :
    sentinelEnd.toList = "<!-- code-graph-mcp:".toList ++ ['e', 'n', 'd', ' ', '-', '-', '>'] := by
  have hlast : "end -->".toList = ['e', 'n', 'd', ' ', '-', '-', '>'] := String.toList_ofList
  have happend : "<!-- code-graph-mcp:end -->" = "<!-- code-graph-mcp:" ++ "end -->" := by simp
  calc sentinelEnd.toList = ("<!-- code-graph-mcp:" ++ "end -->").toList := congrArg String.toList happend
    _ = "<!-- code-graph-mcp:".toList ++ ['e', 'n', 'd', ' ', '-', '-', '>'] := by rw [String.toList_append, hlast]

/-- A begin marker and an end marker do not begin at one place. -/
theorem BeginMarker.ne_end {a b : List Char} (hs : BeginMarker s) (ht : EndMarker t) : s ++ a ≠ t ++ b := by
  obtain ⟨lead, _, trail, rfl, hlead, ⟨w, rfl, -, -⟩, -⟩ := hs
  obtain ⟨lead', _, trail', rfl, hlead', rfl, -⟩ := ht
  intro heq
  have heq' : lead ++ (beginText ++ w ++ ['-', '-', '>'] ++ (trail ++ a)) =
      lead' ++ (sentinelEnd.toList ++ (trail' ++ b)) := by simpa using heq
  have hdrop := congrArg (List.dropWhile blank) heq'
  have hbegin : beginText ++ w ++ ['-', '-', '>'] ++ (trail ++ a) =
      '<' :: (beginText.tail ++ w ++ ['-', '-', '>'] ++ (trail ++ a)) := rfl
  have hend : sentinelEnd.toList ++ (trail' ++ b) = '<' :: (sentinelEnd.toList.tail ++ (trail' ++ b)) := rfl
  rw [List.dropWhile_append_of_pos hlead, List.dropWhile_append_of_pos hlead', hbegin, hend,
    List.dropWhile_cons_of_neg (by decide), List.dropWhile_cons_of_neg (by decide)] at hdrop
  rw [← hbegin, ← hend, sentinelEnd_split, beginText_split] at hdrop
  simp only [List.append_assoc, List.append_cancel_left_eq, List.cons_append] at hdrop
  obtain ⟨h, -⟩ := List.cons_eq_cons.mp hdrop
  exact absurd h (by decide)

/-- A line end lies in the comment of a begin marker, and the next closing closes it. -/
theorem BeginMarker.of_open (hopen : Open BeginMarker s) (hs : endsLine s = true) (hm : Closing m) :
    BeginMarker (s ++ m) := by
  obtain ⟨t, lead, _, trail, heq, hlead, ⟨w, rfl, hw, hn⟩, htrail⟩ := hopen
  obtain ⟨w', trail', rfl, hw', hn', htrail'⟩ := hm
  obtain ⟨s', c, rfl, hc⟩ := endsLine_eq_true_iff.mp hs
  have hsplit : s' ++ [c] ++ t = (lead ++ beginText) ++ (w ++ (['-', '-', '>'] ++ trail)) := by
    rw [heq]
    simp
  have hnot : ∀ {l : List Char}, (∀ d ∈ l, lineTerminator d = false) → c ∉ l := by
    intro l hl hmem
    rw [hl c hmem] at hc
    cases hc
  have hfront : c ∉ lead ++ beginText := by
    refine hnot fun d hd => ?_
    rcases List.mem_append.mp hd with hd | hd
    exacts [not_lineTerminator_of_blank (hlead d hd), lineTerminator_beginText d hd]
  have hback : c ∉ ['-', '-', '>'] ++ trail := by
    refine hnot fun d hd => ?_
    rcases List.mem_append.mp hd with hd | hd
    · have hclose : ∀ e ∈ ['-', '-', '>'], lineTerminator e = false := List.all_iff_forall_prop.mp (by decide)
      exact hclose d hd
    · exact not_lineTerminator_of_blank (htrail d hd)
  have hclosed : ∀ y, s' ++ [c] = lead ++ beginText ++ y → '>' ∉ y → '\n' ∉ y →
      BeginMarker (s' ++ [c] ++ (w' ++ ['-', '-', '>'] ++ trail')) := by
    intro y hy hgt hnl
    refine ⟨lead, beginText ++ (y ++ w') ++ ['-', '-', '>'], trail', ?_, hlead, ⟨_, rfl, ?_, ?_⟩, htrail'⟩
    · rw [hy]
      simp
    · simp [hgt, hw']
    · simp [hnl, hn']
  -- the line end is the last character of the open marker: it lies in `w`
  obtain ⟨y, hfst, -⟩ | ⟨y, hfst, hsnd⟩ := List.append_eq_append_iff.mp hsplit
  · exact absurd (by rw [hfst]; simp) hfront
  obtain ⟨z, rfl, hz⟩ | ⟨z, rfl, -⟩ := List.append_eq_append_iff.mp hsnd
  · cases z using List.reverseRecOn with
    | nil => exact hclosed w (by rw [hfst, List.append_nil]) hw hn
    | append_singleton z d =>
      have hd : c = d := by
        rw [← List.append_assoc, ← List.append_assoc] at hfst
        exact List.singleton_injective (List.append_inj' hfst rfl).2
      exact absurd (by rw [hz, hd]; simp) hback
  · rw [List.mem_append, not_or] at hw hn
    exact hclosed y hfst hw.1 hn.1

theorem EndMarker.line (h : EndMarker s) : ∀ ch ∈ s, lineTerminator ch = false := by
  obtain ⟨lead, _, trail, rfl, hlead, rfl, htrail⟩ := h
  intro ch hch
  rw [List.mem_append, List.mem_append] at hch
  rcases hch with (hch | hch) | hch
  exacts [not_lineTerminator_of_blank (hlead ch hch), lineTerminator_sentinelEnd ch hch,
    not_lineTerminator_of_blank (htrail ch hch)]

/-- A line end is no part of an end marker. -/
theorem not_open_endMarker (hs : endsLine s = true) : ¬Open EndMarker s := by
  rintro ⟨t, ht⟩
  obtain ⟨s', c, rfl, hc⟩ := endsLine_eq_true_iff.mp hs
  have hfalse := ht.line c (by simp)
  rw [hc] at hfalse
  cases hfalse

theorem Open.not_newline (hopen : Open BeginMarker s) : '\n' ∉ s := by
  obtain ⟨t, ht⟩ := hopen
  obtain ⟨w, trail, heq, -, hn, htrail⟩ := ht.closing
  intro hmem
  have hmem' : '\n' ∈ w ++ ['-', '-', '>'] ++ trail := by
    rw [← heq]
    exact List.mem_append_left t hmem
  rw [List.mem_append, List.mem_append] at hmem'
  rcases hmem' with (hmem' | hmem') | hmem'
  · exact hn hmem'
  · revert hmem'
    decide
  · exact absurd (htrail _ hmem') (by decide)

theorem Open.not_close (hopen : Open BeginMarker s) (hs : endsLine s = true) : '>' ∉ s := by
  obtain ⟨t, ht⟩ := hopen
  obtain ⟨w, trail, heq, hw, -, htrail⟩ := ht.closing
  obtain ⟨s', c, rfl, hc⟩ := endsLine_eq_true_iff.mp hs
  have hsplit : s' ++ [c] ++ t = (w ++ ['-', '-']) ++ ('>' :: trail) := by
    rw [heq]
    simp
  obtain ⟨y, hfst, -⟩ | ⟨y, hfst, hsnd⟩ := List.append_eq_append_iff.mp hsplit
  · intro hmem
    have hmem' : '>' ∈ w ++ ['-', '-'] := by
      rw [hfst]
      exact List.mem_append_left y hmem
    simp [hw] at hmem'
  · cases y using List.reverseRecOn with
    | nil =>
      rw [hfst]
      simp [hw]
    | append_singleton y d =>
      rw [← List.append_assoc] at hfst
      obtain rfl : c = d := List.singleton_injective (List.append_inj' hfst rfl).2
      have hmem : c ∈ '>' :: trail := by
        rw [hsnd]
        simp
      rcases List.mem_cons.mp hmem with rfl | hmem
      · cases hc
      · rw [not_lineTerminator_of_blank (htrail c hmem)] at hc
        cases hc

theorem BeginMarker.close_mem (h : BeginMarker m) : '>' ∈ m := by
  obtain ⟨w, trail, rfl, -⟩ := h.closing
  simp

/-! ### Markers that stand in a text -/

/-- What a pattern takes is a text of this shape up to a line end. -/
structure Takes (q : List Char → Option Match) (Shape : List Char → Prop) : Prop where
  eq_some_iff : ∀ {text m rest}, q text = some (m, rest) ↔ text = m ++ rest ∧ Shape m ∧ lineEnd rest = true
  head : ∀ {m}, Shape m → ∃ c w, m = c :: w ∧ lineTerminator c = false

theorem takes_alone {q : List Char → Option Match} {Word : List Char → Prop}
    (hq : ∀ {text m rest}, q text = some (m, rest) ↔ text = m ++ rest ∧ Alone Word m ∧ lineEnd rest = true)
    (hword : ∀ {word}, Word word → ∃ w, word = '<' :: w) : Takes q (Alone Word) where
  eq_some_iff := hq
  head := by
    rintro _ ⟨lead, word, trail, rfl, hlead, h, -⟩
    obtain ⟨w, rfl⟩ := hword h
    cases lead with
    | nil => exact ⟨'<', _, rfl, by decide⟩
    | cons c lead => exact ⟨c, _, rfl, not_lineTerminator_of_blank (hlead c List.mem_cons_self)⟩

theorem takesBegin : Takes beginLine BeginMarker := by
  refine takes_alone beginLine_eq_some_iff ?_
  rintro _ ⟨w, rfl, -, -⟩
  exact ⟨_, rfl⟩

theorem takesEnd : Takes endLine EndMarker := by
  refine takes_alone endLine_eq_some_iff ?_
  rintro _ rfl
  exact ⟨sentinelEnd.toList.tail, by decide⟩

theorem lineEnd_append (h : s ≠ []) : lineEnd (s ++ t) = lineEnd s := by
  cases s with
  | nil => exact absurd rfl h
  | cons => rfl

/-- A text that cannot be continued to a marker holds all of a marker that it begins with. -/
theorem Takes.eq_some_of_not_open {q : List Char → Option Match} {Shape : List Char → Prop} (hq : Takes q Shape)
    (hs : ¬Open Shape s) :
    q (s ++ t) = some (m, rest) ↔ ∃ r, r ≠ [] ∧ s = m ++ r ∧ rest = r ++ t ∧ Shape m ∧ lineEnd r = true := by
  rw [hq.eq_some_iff]
  constructor
  · rintro ⟨heq, hm, hend⟩
    obtain ⟨y, rfl, -⟩ | ⟨r, rfl, rfl⟩ := List.append_eq_append_iff.mp heq
    · exact absurd ⟨y, hm⟩ hs
    · have hr : r ≠ [] := by
        rintro rfl
        exact hs ⟨[], by simpa using hm⟩
      exact ⟨r, hr, rfl, rfl, hm, by rwa [lineEnd_append hr] at hend⟩
  · rintro ⟨r, hr, rfl, rfl, hm, hend⟩
    exact ⟨by simp, hm, by rwa [lineEnd_append hr]⟩

variable {β : Type*}

/-- The text of a list of placed characters. -/
def chars (X : List (Char × β)) : List Char :=
  X.map Prod.fst

@[simp] theorem chars_nil : chars ([] : List (Char × β)) = [] := rfl

@[simp] theorem chars_cons (x : Char × β) (X : List (Char × β)) : chars (x :: X) = x.1 :: chars X := rfl

@[simp] theorem chars_append (X Y : List (Char × β)) : chars (X ++ Y) = chars X ++ chars Y := List.map_append

@[simp] theorem chars_eq_nil_iff {X : List (Char × β)} : chars X = [] ↔ X = [] := List.map_eq_nil_iff

theorem chars_eq_append_iff {X : List (Char × β)} :
    chars X = s ++ t ↔ ∃ Y Z, X = Y ++ Z ∧ chars Y = s ∧ chars Z = t := List.map_eq_append_iff

/-- Of every stretch of a text that a pattern takes. -/
def Each (q : List Char → Option Match) (P : List (Char × β) → Prop) (X : List (Char × β)) : Prop :=
  ∀ U S V, X = U ++ S ++ V → AtStart (chars U) → q (chars S ++ chars V) = some (chars S, chars V) → P S

/-- Lines taken out of a text, `M`, with newlines around them; what is before them ends a line. -/
structure CutAt (A N M N' B : List (Char × β)) : Prop where
  start : AtStart (chars A)
  start_lines : AtStart (chars (A ++ N))
  kept : N ≠ [] → (chars A).getLast? = some '\n'
  newlines : ∀ x ∈ N ++ N', x.1 = '\n'
  stop : lineEnd (chars (N' ++ B)) = true

variable {A N M N' B : List (Char × β)} {q : List Char → Option Match} {Shape : List Char → Prop}

theorem CutAt.ends_before {U S : List (Char × β)} (h : CutAt A N M N' B) (hA : A = U ++ S) (hS : S ≠ []) :
    endsLine (chars S) = true := by
  have hstart := h.start
  rwa [hA, chars_append, atStart_append (by simpa using hS)] at hstart

/-- A line behind the cut begins behind what stays before it. -/
theorem CutAt.atStart_cut {W Z : List (Char × β)} (h : CutAt A N M N' B) (hZ : AtStart (chars (W ++ Z))) :
    AtStart (chars (A ++ Z)) := by
  by_cases hne : Z = []
  · rw [hne, List.append_nil]
    exact h.start
  · rw [chars_append, atStart_append (by simpa using hne)] at hZ
    rwa [chars_append, atStart_append (by simpa using hne)]

/-- A text before the cut without a newline ends where the lines begin. -/
theorem CutAt.before_eq_nil {U S : List (Char × β)} (h : CutAt A N M N' B) (hA : A = U ++ S) (hS : S ≠ [])
    (hnl : '\n' ∉ chars S) : N = [] := by
  by_contra hne
  have hlast := h.kept hne
  rw [hA, chars_append, List.getLast?_append_of_ne_nil _ (by simpa using hS)] at hlast
  exact hnl (List.mem_of_getLast? hlast)

/-- A line of what stays behind the cut began before it. -/
theorem CutAt.atStart {B₁ B₂ : List (Char × β)} (h : CutAt A N M N' (B₁ ++ B₂)) (hstart : AtStart (chars (A ++ B₁)))
    (hB : ∃ x B, B₂ = x :: B ∧ lineTerminator x.1 = false) : AtStart (chars (A ++ N ++ M ++ N' ++ B₁)) := by
  cases hB₁ : B₁ with
  | cons x B =>
    rw [hB₁, chars_append, atStart_append (by simp)] at hstart
    rw [chars_append, atStart_append (by simp)]
    exact hstart
  | nil =>
    rw [List.append_nil]
    cases N' using List.reverseRecOn with
    | append_singleton N' y =>
      have hy := h.newlines y (by simp)
      refine Or.inr ?_
      rw [← List.append_assoc, chars_append, endsLine_append (by simp)]
      simp [chars, endsLine, hy, lineTerminator]
    | nil =>
      obtain ⟨x, B, rfl, hx⟩ := hB
      have hstop := h.stop
      rw [hB₁] at hstop
      rw [show lineEnd (chars ([] ++ ([] ++ x :: B))) = lineTerminator x.1 from rfl, hx] at hstop
      cases hstop

/-- Each marker of a text stood in it before the cut. -/
theorem Each.cut {P : List (Char × β) → Prop} (hq : Takes q Shape) (h : CutAt A N M N' B)
    (hclosed : ∀ U S, A = U ++ S → S ≠ [] → AtStart (chars U) → ¬Open Shape (chars S))
    (hall : Each q P (A ++ N ++ M ++ N' ++ B)) : Each q P (A ++ B) := by
  intro U S V heq hstart htake
  have hS : ∃ x S', S = x :: S' ∧ lineTerminator x.1 = false := by
    obtain ⟨-, hm, -⟩ := hq.eq_some_iff.mp htake
    obtain ⟨c, w, hw, hc⟩ := hq.head hm
    cases S with
    | nil => cases hw
    | cons x S =>
      obtain ⟨rfl, -⟩ := List.cons_eq_cons.mp hw
      exact ⟨x, S, rfl, hc⟩
  have hbehind : ∀ B₁, U = A ++ B₁ → B = B₁ ++ (S ++ V) → P S := by
    rintro B₁ rfl rfl
    refine hall (A ++ N ++ M ++ N' ++ B₁) S V (by simp) (h.atStart hstart ?_) htake
    obtain ⟨x, S', rfl, hx⟩ := hS
    exact ⟨x, S' ++ V, rfl, hx⟩
  rw [List.append_assoc] at heq
  obtain ⟨B₁, hU, hB⟩ | ⟨A₂, rfl, hA₂⟩ := List.append_eq_append_iff.mp heq
  · exact hbehind B₁ hU hB
  by_cases hne : A₂ = []
  · subst hne
    exact hbehind [] (by simp) (by simpa using hA₂.symm)
  -- the marker begins before the cut, and it ends there
  have hopen := hclosed U A₂ rfl hne hstart
  rw [← chars_append, hA₂, chars_append, hq.eq_some_of_not_open hopen] at htake
  obtain ⟨r, hr, hAr, -, hm, hend⟩ := htake
  obtain ⟨S', R, rfl, hS', rfl⟩ := chars_eq_append_iff.mp hAr
  have hlength : S.length = S'.length := by simpa [chars] using congrArg List.length hS'.symm
  rw [List.append_assoc] at hA₂
  obtain ⟨rfl, -⟩ := List.append_inj hA₂ hlength
  refine hall U S (R ++ (N ++ M ++ N' ++ B)) (by simp) hstart ?_
  have htake := (hq.eq_some_of_not_open hopen (t := chars (N ++ M ++ N' ++ B))).mpr ⟨_, hr, hAr, rfl, hm, hend⟩
  rw [hAr] at htake
  simpa using htake

/-! ### Markers that stay -/

/-- A stretch of a text between line ends. -/
def StandsIn (S X : List (Char × β)) : Prop :=
  ∃ U V, X = U ++ S ++ V ∧ AtStart (chars U) ∧ lineEnd (chars V) = true

/-- The end of a marker. -/
def EndsComment (m : List Char) : Prop :=
  ∃ p trail, m = p ++ ['>'] ++ trail ∧ ∀ c ∈ trail, blank c = true

theorem Closing.endsComment (h : Closing m) (p : List Char) : EndsComment (p ++ m) := by
  obtain ⟨w, trail, rfl, -, -, htrail⟩ := h
  exact ⟨p ++ w ++ ['-', '-'], trail, by simp, htrail⟩

/-- A marker does not begin in the last line of lines taken out and run on behind them. -/
theorem IsMarker.not_over_end {z z' m' : List Char} (h : IsMarker (z ++ z')) (hz : z ≠ []) (hz' : z' ≠ [])
    (hend : lineEnd z' = true) (hm : EndsComment (m' ++ z)) : False := by
  obtain ⟨c, z', rfl⟩ := List.exists_cons_of_ne_nil hz'
  have hc : lineTerminator c = true := hend
  rcases h with h | h
  · have hopen : Open BeginMarker (z ++ [c]) := ⟨z', by simpa using h⟩
    have hgt : '>' ∉ z := by
      have hnot := hopen.not_close (by rw [endsLine_append (by simp)]; exact hc)
      exact fun hmem => hnot (List.mem_append_left [c] hmem)
    have hblank : ∀ d ∈ z, blank d = true := by
      obtain ⟨p, trail, heq, htrail⟩ := hm
      obtain ⟨y, hy, rfl⟩ | ⟨y, -, rfl⟩ := List.append_eq_append_iff.mp heq
      · cases y using List.reverseRecOn with
        | nil => simpa using htrail
        | append_singleton y d =>
          rw [← List.append_assoc] at hy
          obtain rfl := List.singleton_injective (List.append_inj' hy rfl).2
          exact absurd (by simp) hgt
      · exact fun d hd => htrail d (List.mem_append_right y hd)
    -- what follows the blanks of the marker would be the line end
    obtain ⟨lead, _, trail, heq, hlead, ⟨w, rfl, -, -⟩, -⟩ := h
    have hdrop := congrArg (List.dropWhile blank) heq
    have hword : beginText ++ w ++ ['-', '-', '>'] ++ trail = '<' :: (beginText.tail ++ w ++ ['-', '-', '>'] ++ trail) := rfl
    rw [List.dropWhile_append_of_pos hblank, List.append_assoc lead, List.dropWhile_append_of_pos hlead, hword,
      List.dropWhile_cons_of_neg, List.dropWhile_cons_of_neg (by decide)] at hdrop
    · obtain ⟨rfl, -⟩ := List.cons_eq_cons.mp hdrop
      cases hc
    · intro hb
      rw [not_lineTerminator_of_blank hb] at hc
      cases hc
  · have hfalse := h.line c (by simp)
    rw [hc] at hfalse
    cases hfalse

theorem IsMarker.head (h : IsMarker m) : ∃ c w, m = c :: w ∧ lineTerminator c = false := by
  rcases h with h | h
  exacts [takesBegin.head h, takesEnd.head h]

/-- What is no longer open before a text, holds all of a marker that begins in it. -/
theorem IsMarker.within (h : IsMarker m) (heq : m ++ rest = s ++ t) (hend : lineEnd rest = true)
    (hbegin : ¬Open BeginMarker s) (hstop : ¬Open EndMarker s) : ∃ r, r ≠ [] ∧ s = m ++ r ∧ lineEnd r = true := by
  rcases h with h | h
  · have htake := takesBegin.eq_some_iff.mpr ⟨rfl, h, hend⟩
    rw [heq, takesBegin.eq_some_of_not_open hbegin] at htake
    obtain ⟨r, hr, hs, -, -, hend⟩ := htake
    exact ⟨r, hr, hs, hend⟩
  · have htake := takesEnd.eq_some_iff.mpr ⟨rfl, h, hend⟩
    rw [heq, takesEnd.eq_some_of_not_open hstop] at htake
    obtain ⟨r, hr, hs, -, -, hend⟩ := htake
    exact ⟨r, hr, hs, hend⟩

/-- A marker outlives the cut, unless it is part of the lines taken out. -/
theorem StandsIn.cut {S : List (Char × β)} (h : CutAt A N M N' B) (hM : EndsComment (chars M))
    (hclosed : ∀ U S, A = U ++ S → S ≠ [] → AtStart (chars U) → ¬Open BeginMarker (chars S))
    (hS : IsMarker (chars S)) (hstands : StandsIn S (A ++ N ++ (M ++ (N' ++ B)))) :
    StandsIn S (A ++ B) ∨ ∃ Y Z, M = Y ++ S ++ Z := by
  obtain ⟨U, V, heq, hstart, hend⟩ := hstands
  obtain ⟨x, S', hx, hxline⟩ : ∃ x S', S = x :: S' ∧ lineTerminator x.1 = false := by
    obtain ⟨c, w, hw, hc⟩ := hS.head
    cases S with
    | nil => cases hw
    | cons x S =>
      obtain ⟨rfl, -⟩ := List.cons_eq_cons.mp hw
      exact ⟨x, S, rfl, hc⟩
  have hnl : ∀ {Y Z W : List (Char × β)}, (∀ y ∈ Y, y.1 = '\n') → Y ++ W = S ++ Z → Y = [] := by
    intro Y Z W hY hYZ
    cases Y with
    | nil => rfl
    | cons y Y =>
      rw [hx] at hYZ
      obtain ⟨rfl, -⟩ := List.cons_eq_cons.mp hYZ
      rw [hY y List.mem_cons_self] at hxline
      cases hxline
  have hN : ∀ y ∈ N, y.1 = '\n' := fun y hy => h.newlines y (List.mem_append_left N' hy)
  have hN' : ∀ y ∈ N', y.1 = '\n' := fun y hy => h.newlines y (List.mem_append_right N hy)
  have hbehind : ∀ Y, U = A ++ N ++ M ++ Y → N' ++ B = Y ++ (S ++ V) → StandsIn S (A ++ B) := by
    intro Y hU hY
    obtain ⟨Z, rfl, hB⟩ | ⟨Z, hZ, hB⟩ := List.append_eq_append_iff.mp hY
    · refine ⟨A ++ Z, V, by rw [hB]; simp, ?_, hend⟩
      rw [hU, ← List.append_assoc] at hstart
      exact h.atStart_cut hstart
    · obtain rfl : Z = [] := hnl (fun y hy => hN' y (by rw [hZ]; exact List.mem_append_right Y hy)) hB.symm
      exact ⟨A, V, by rw [← List.nil_append B, ← hB, List.append_assoc], h.start, hend⟩
  have hfrom : ∀ Y, U = A ++ N ++ Y → M ++ (N' ++ B) = Y ++ (S ++ V) →
      StandsIn S (A ++ B) ∨ ∃ Y Z, M = Y ++ S ++ Z := by
    intro Y hU hY
    obtain ⟨Z, rfl, hZ⟩ | ⟨Z, rfl, hZ⟩ := List.append_eq_append_iff.mp hY
    · exact Or.inl (hbehind Z (by rw [hU]; simp) hZ)
    by_cases hne : Z = []
    · subst hne
      exact Or.inl (hbehind [] (by rw [hU]; simp) (by simpa using hZ.symm))
    obtain ⟨z, rfl, hz⟩ | ⟨r, rfl, -⟩ := List.append_eq_append_iff.mp hZ.symm
    · by_cases hz' : z = []
      · subst hz'
        exact Or.inr ⟨Y, [], by simp⟩
      · have hstop := h.stop
        rw [hz, chars_append, lineEnd_append (by simpa using hz')] at hstop
        rw [chars_append] at hS hM
        exact absurd hM (fun hM => hS.not_over_end (by simpa using hne) (by simpa using hz') hstop hM)
    · exact Or.inr ⟨Y, r, by simp⟩
  obtain ⟨Y, hU, hY⟩ | ⟨Z, hZ, hSV⟩ := List.append_eq_append_iff.mp (heq.trans (List.append_assoc U S V))
  · exact hfrom Y hU hY
  by_cases hne : Z = []
  · subst hne
    exact hfrom [] (by simpa using hZ.symm) (by simpa using hSV.symm)
  obtain ⟨Y, -, hY⟩ | ⟨Y, rfl, rfl⟩ := List.append_eq_append_iff.mp hZ
  · exact absurd (hnl (fun y hy => hN y (by rw [hY]; exact List.mem_append_right Y hy)) hSV.symm) hne
  by_cases hne' : Y = []
  · subst hne'
    exact absurd (hnl (by simpa using hN) hSV.symm) hne
  -- the marker begins before the cut
  have hclosed' := not_open_endMarker (h.ends_before rfl hne')
  have hchars : chars S ++ chars V = chars Y ++ chars (N ++ (M ++ (N' ++ B))) := by
    rw [← chars_append, hSV, ← chars_append, List.append_assoc]
  obtain ⟨r, hr, hY, hrend⟩ := hS.within hchars hend (hclosed U Y rfl hne' hstart) hclosed'
  obtain ⟨S₁, R, rfl, hS₁, rfl⟩ := chars_eq_append_iff.mp hY
  have hlength : S.length = S₁.length := by simpa [chars] using congrArg List.length hS₁.symm
  rw [List.append_assoc, List.append_assoc] at hSV
  obtain ⟨rfl, -⟩ := List.append_inj hSV hlength
  exact Or.inl ⟨U, R ++ B, by simp, hstart, by rwa [chars_append, lineEnd_append hr]⟩

end CodeGraph.Plugin.Adopt
