import CodeGraph.Graph.Boundaries
import Mathlib.Data.List.Infix
import Mathlib.Data.Nat.Basic
import Mathlib.Order.Lattice

/-!
# The masking lexer preserves geometry

`Inv` is the invariant of the main loop and `Moves` what each form of comment or literal does with it: no index or
slice is out of range, the invariant holds again, and the cursor has moved on. There is one lemma for each form,
over one lemma for each scan that says between which bounds it ends, at the end of the input too.
-/

namespace CodeGraph.Graph.Boundaries

open CodeGraph.Lib

variable {src : List UInt8} {syn : Syntax} {st : LexState}

/-! ### Where the scans end -/

theorem byteAt_eq_ok {i : ℕ} (h : i < src.length) : byteAt src i = .ok src[i] := by
  rw [byteAt, List.getElem?_eq_getElem h]

theorem sliceFrom_eq_ok {lo : ℕ} (h : lo ≤ src.length) : sliceFrom src lo = .ok (src.drop lo) :=
  if_pos h

theorem slice_eq_ok {lo hi : ℕ} (h : lo ≤ hi) (h' : hi ≤ src.length) :
    slice src lo hi = .ok ((src.take hi).drop lo) :=
  if_pos ⟨h, h'⟩

theorem blank_eq_ok {masked : List UInt8} {lo hi : ℕ} (h : lo ≤ hi) (h' : hi ≤ masked.length) :
    blank masked lo hi = .ok (blankRange (· == newline) space lo hi masked) :=
  if_pos ⟨h, h'⟩

/-- A search from `i` on ends in range. -/
theorem findIdx?_drop_lt {i p : ℕ} {q : UInt8 → Bool} (h : (src.drop i).findIdx? q = some p) :
    i + p < src.length := by
  have hp := (List.findIdx?_eq_some_iff_getElem.mp h).1
  rw [List.length_drop] at hp
  omega

theorem lineEnd_spec {i : ℕ} (h : i ≤ src.length) :
    ∃ e, lineEnd src i = .ok e ∧ i ≤ e ∧ e ≤ src.length ∧
      (∀ c, src[i]? = some c → c ≠ newline → i < e) := by
  unfold lineEnd
  rw [sliceFrom_eq_ok h]
  dsimp only [bind, Except.bind, pure, Except.pure]
  cases hp : (src.drop i).findIdx? (· == newline) with
  | none =>
    refine ⟨src.length, rfl, h, le_rfl, fun c hc _ => ?_⟩
    exact (List.getElem?_eq_some_iff.mp hc).1
  | some p =>
    have hlt := findIdx?_drop_lt hp
    refine ⟨i + p, rfl, by omega, by omega, fun c hc hne => ?_⟩
    -- the byte at `i` is no newline, so the first newline is further on
    by_contra hle
    obtain rfl : p = 0 := by omega
    have hnl := (List.findIdx?_eq_some_iff_getElem.mp hp).2.1
    rw [List.getElem_drop] at hnl
    obtain ⟨hi, rfl⟩ := List.getElem?_eq_some_iff.mp hc
    exact hne (by simpa using hnl)

theorem findSub_spec {lo p : ℕ} {needle : List UInt8} (h : findSub src lo needle = some p) :
    lo ≤ p ∧ p + needle.length ≤ src.length := by
  unfold findSub at h
  split_ifs at h with hno
  rw [not_or, not_lt] at hno
  obtain ⟨k, hk, rfl⟩ := Option.map_eq_some_iff.mp h
  obtain ⟨hlt, hpre, -⟩ := List.findIdx?_eq_some_iff_getElem.mp hk
  rw [List.getElem_tails] at hpre
  have hle := (List.isPrefixOf_iff_prefix.mp hpre).length_le
  rw [List.length_drop, List.length_drop] at hle
  rw [List.length_tails, List.length_drop] at hlt
  have hpos : 0 < needle.length := List.length_pos_iff.mpr hno.2
  omega

/-- A literal that ends at a search for its terminator, or at the end of the input. -/
theorem findSub_getD {lo : ℕ} (needle : List UInt8) (h : lo ≤ src.length) :
    lo ≤ (findSub src lo needle).getD src.length ∧ (findSub src lo needle).getD src.length ≤ src.length := by
  cases hp : findSub src lo needle with
  | none => exact ⟨h, le_rfl⟩
  | some p =>
    obtain ⟨hlo, hhi⟩ := findSub_spec hp
    rw [Option.getD_some]
    omega

theorem previousIs_ok {i : ℕ} (q : UInt8 → Bool) (h : i < src.length) : ∃ b, previousIs src i q = .ok b := by
  unfold previousIs
  split_ifs
  · exact ⟨true, rfl⟩
  · rw [byteAt_eq_ok (show i - 1 < src.length by omega)]
    exact ⟨_, rfl⟩

theorem rubyCommentEnd_spec {i : ℕ} (h : i < src.length) :
    ∃ e, rubyCommentEnd src i = .ok e ∧ i < e ∧ e ≤ src.length := by
  unfold rubyCommentEnd
  cases hp : findSub src i (newline :: "=end".toList.map ascii) with
  | none => exact ⟨src.length, rfl, h, le_rfl⟩
  | some p =>
    obtain ⟨hlo, hhi⟩ := findSub_spec hp
    rw [List.length_cons] at hhi
    obtain ⟨e, he, hle, hen, -⟩ := lineEnd_spec (show p + 1 ≤ src.length by omega)
    exact ⟨e, he, by omega, hen⟩

theorem blockCommentEnd_spec (nested : Bool) (depth j : ℕ) (h : j ≤ src.length) :
    j ≤ blockCommentEnd src nested depth j ∧ blockCommentEnd src nested depth j ≤ src.length := by
  fun_induction blockCommentEnd src nested depth j with
  | case1 depth j hj hopen ih =>
    have hlt := (List.getElem?_eq_some_iff.mp hopen.2.2).1
    have := ih (by omega)
    omega
  | case2 depth j hj hopen hclose ih =>
    have hlt := (List.getElem?_eq_some_iff.mp hclose.2).1
    have := ih (by omega)
    omega
  | case3 depth j hj hopen hclose ih =>
    have := ih (by omega)
    omega
  | case4 depth j hj => exact ⟨le_rfl, h⟩

/-- An escape may step over the end, and then the literal ends there. -/
theorem scanQuoted_spec (src : List UInt8) (j : ℕ) (quote : UInt8) (multiline : Bool) :
    min j src.length ≤ scanQuoted src j quote multiline ∧ scanQuoted src j quote multiline ≤ src.length := by
  fun_induction scanQuoted src j quote multiline with
  | case1 j hj hesc ih => omega
  | case2 j hj hesc hstop => omega
  | case3 j hj hesc hstop ih => omega
  | case4 j hj => omega

theorem templateStop_spec (src : List UInt8) (j : ℕ) :
    match templateStop src j with
    | .close k => j ≤ k ∧ k < src.length
    | .interpolation k => j ≤ k ∧ k + 2 ≤ src.length
    | .unterminated => True := by
  fun_induction templateStop src j with
  | case1 j hj hesc ih =>
    revert ih
    cases templateStop src (j + 2) with
    | close k => exact fun ih => ⟨by omega, ih.2⟩
    | interpolation k => exact fun ih => ⟨by omega, ih.2⟩
    | unterminated => exact fun ih => ih
  | case2 j hj hesc hclose => exact ⟨le_rfl, hj⟩
  | case3 j hj hesc hclose hopen =>
    have hlt := (List.getElem?_eq_some_iff.mp hopen.2).1
    exact ⟨le_rfl, by omega⟩
  | case4 j hj hesc hclose hopen ih =>
    revert ih
    cases templateStop src (j + 1) with
    | close k => exact fun ih => ⟨by omega, ih.2⟩
    | interpolation k => exact fun ih => ⟨by omega, ih.2⟩
    | unterminated => exact fun ih => ih
  | case5 j hj => trivial

/-! ### The invariant of the main loop -/

/-- A literal lies in the source; if it has content, that is the source between the quotes, which is blanked. -/
structure LitOk (src masked : List UInt8) (lit : StrLit) : Prop where
  lt : lit.opening < lit.closing
  le : lit.closing ≤ src.length
  content : ∀ s, lit.content = some s →
    Blanked (· == newline) space masked (lit.opening + 1) lit.closing ∧
      s.toUTF8 = ((src.take lit.closing).drop (lit.opening + 1)).toByteArray

structure Inv (src : List UInt8) (st : LexState) : Prop where
  masks : Masks (· == newline) space src st.masked
  bound : st.i ≤ src.length
  sorted : st.strings.Pairwise fun a b => a.closing ≤ b.opening
  /-- The cursor is past the literals found. -/
  past : ∀ lit ∈ st.strings, lit.closing ≤ st.i
  lits : ∀ lit ∈ st.strings, LitOk src st.masked lit

/-- A turn from `st` succeeds, keeps the invariant and moves on. -/
def Moves (src : List UInt8) (st : LexState) (r : Except Fault LexState) : Prop :=
  ∃ st', r = .ok st' ∧ Inv src st' ∧ st.i < st'.i

theorem LitOk.blankRange {masked : List UInt8} {lit : StrLit} (h : LitOk src masked lit) (lo hi : ℕ) :
    LitOk src (blankRange (· == newline) space lo hi masked) lit :=
  { h with content := fun s hs => ⟨(h.content s hs).1.blankRange lo hi, (h.content s hs).2⟩ }

/-- Blanking something and moving on keeps the invariant. -/
theorem Inv.move (h : Inv src st) {lo hi next : ℕ} {interp : List ℕ} (hi' : st.i ≤ next)
    (hn : next ≤ src.length) :
    Inv src ⟨blankRange (· == newline) space lo hi st.masked, st.strings, next, interp⟩ where
  masks := h.masks.blankRange lo hi
  bound := hn
  sorted := h.sorted
  past lit hl := (h.past lit hl).trans hi'
  lits lit hl := (h.lits lit hl).blankRange lo hi

/-- So does finding a literal that lies between the cursor and where it moves. -/
theorem Inv.push (h : Inv src st) {lo hi next : ℕ} {interp : List ℕ} {lit : StrLit} (ho : st.i ≤ lit.opening)
    (hc : lit.closing ≤ next) (hn : next ≤ src.length)
    (hlit : LitOk src (blankRange (· == newline) space lo hi st.masked) lit) :
    Inv src ⟨blankRange (· == newline) space lo hi st.masked, st.strings ++ [lit], next, interp⟩ where
  masks := h.masks.blankRange lo hi
  bound := hn
  sorted := by
    rw [List.pairwise_append]
    refine ⟨h.sorted, List.pairwise_singleton _ _, fun a ha b hb => ?_⟩
    rw [List.mem_singleton.mp hb]
    exact (h.past a ha).trans ho
  past l hl := by
    have hlt := hlit.lt
    rcases List.mem_append.mp hl with hl | hl
    · have hpast := h.past l hl
      show l.closing ≤ next
      omega
    · rwa [List.mem_singleton.mp hl]
  lits l hl := by
    rcases List.mem_append.mp hl with hl | hl
    · exact (h.lits l hl).blankRange lo hi
    · rwa [List.mem_singleton.mp hl]

theorem fromUtf8_spec {bytes : List UInt8} {s : String} (h : fromUtf8 bytes = some s) :
    s.toUTF8 = bytes.toByteArray := by
  unfold fromUtf8 String.fromUTF8? at h
  split_ifs at h with hv
  cases h
  rfl

theorem Inv.blankTo (h : Inv src st) {lo hi next : ℕ} (hlo : lo ≤ hi) (hhi : hi ≤ src.length)
    (hi' : st.i < next) (hn : next ≤ src.length) : Moves src st (st.blankTo lo hi next) := by
  unfold LexState.blankTo
  rw [blank_eq_ok hlo (by rw [h.masks.length_eq]; exact hhi)]
  exact ⟨_, rfl, h.move hi'.le hn, hi'⟩

theorem Inv.record (h : Inv src st) {opening closing next : ℕ} (raw : Bool) (ho : st.i ≤ opening)
    (hlt : opening < closing) (hc : closing ≤ src.length) (hnext : closing ≤ next) (hn : next ≤ src.length) :
    Moves src st (st.record src opening closing raw next) := by
  unfold LexState.record
  have hlt' : opening + 1 ≤ closing := hlt
  dsimp only
  rw [min_eq_left hc, slice_eq_ok hlt' hc, blank_eq_ok hlt' (by rw [h.masks.length_eq]; exact hc)]
  refine ⟨_, rfl, h.push ho hnext hn ⟨hlt, hc, fun s hs => ⟨blanked_blankRange, ?_⟩⟩, ?_⟩
  · dsimp only at hs
    split_ifs at hs
    exact fromUtf8_spec hs
  · show st.i < next
    omega

/-- A template literal, or a later segment of one, which records nothing. -/
theorem Inv.scanTemplate (h : Inv src st) {lo : ℕ} {opening : Option ℕ} (hi : st.i < lo) (hlo : lo ≤ src.length)
    (ho : ∀ o, opening = some o → st.i ≤ o ∧ lo = o + 1) : Moves src st (scanTemplate src st lo opening) := by
  have hstop := templateStop_spec src lo
  unfold Boundaries.scanTemplate
  generalize templateStop src lo = stop at hstop ⊢
  cases stop with
  | close j =>
    have hj : lo ≤ j ∧ j < src.length := hstop
    dsimp only
    rw [blank_eq_ok hj.1 (by rw [h.masks.length_eq]; omega)]
    cases opening with
    | none => exact ⟨_, rfl, h.move (by omega) (by omega), by show st.i < j + 1; omega⟩
    | some o =>
      obtain ⟨hoi, rfl⟩ := ho o rfl
      dsimp only [bind, Except.bind]
      rw [slice_eq_ok hj.1 hj.2.le]
      refine ⟨_, rfl, h.push hoi (Nat.le_succ j) hj.2 ⟨hj.1, hj.2.le, fun s hs => ?_⟩, ?_⟩
      · exact ⟨blanked_blankRange, fromUtf8_spec hs⟩
      · show st.i < j + 1
        omega
  | interpolation j =>
    have hj : lo ≤ j ∧ j + 2 ≤ src.length := hstop
    dsimp only
    rw [blank_eq_ok hj.1 (by rw [h.masks.length_eq]; omega)]
    exact ⟨_, rfl, h.move (by omega) (by omega), by show st.i < j + 2; omega⟩
  | unterminated => exact h.blankTo hlo le_rfl (by omega) le_rfl

/-! ### The forms -/

/-- A form, at a byte of the source, succeeds; if it is there, it keeps the invariant and moves on. -/
def FormOk (src : List UInt8) (f : Form) : Prop :=
  ∀ st c, Inv src st → src[st.i]? = some c →
    ∃ o, f st c = .ok o ∧ ∀ st', o = some st' → Inv src st' ∧ st.i < st'.i

/-- A form that is there. -/
theorem Moves.there {r : Except Fault LexState} (h : Moves src st r) :
    ∃ o, some <$> r = .ok o ∧ ∀ st', o = some st' → Inv src st' ∧ st.i < st'.i := by
  obtain ⟨st', rfl, hinv, hlt⟩ := h
  refine ⟨some st', rfl, fun st'' heq => ?_⟩
  cases heq
  exact ⟨hinv, hlt⟩

/-- A form that is not there. -/
theorem not_there : ∃ o, (.ok none : Except Fault (Option LexState)) = .ok o ∧
    ∀ st', o = some st' → Inv src st' ∧ st.i < st'.i :=
  ⟨none, rfl, fun _ h => by cases h⟩

theorem lt_of_getElem? {i : ℕ} {c : UInt8} (h : src[i]? = some c) : i < src.length :=
  (List.getElem?_eq_some_iff.mp h).1

theorem slashComment_ok : FormOk src (slashComment src syn) := by
  intro st c h hc
  have hi := lt_of_getElem? hc
  unfold slashComment
  by_cases hif : (syn.slashComments && c == ascii '/' && decide (st.i + 1 < src.length)) = true
  swap
  · rw [if_neg hif]
    exact not_there
  rw [if_pos hif]
  simp only [Bool.and_eq_true, beq_iff_eq, decide_eq_true_eq] at hif
  rw [byteAt_eq_ok hif.2]
  dsimp only [bind, Except.bind]
  split_ifs
  · obtain ⟨e, he, hle, hen, hlt⟩ := lineEnd_spec h.bound
    rw [he]
    have hne : c ≠ newline := by
      rw [hif.1.2]
      decide
    exact (h.blankTo hle hen (hlt c hc hne) hen).there
  · have hend := blockCommentEnd_spec syn.nestedBlockComments 1 (st.i + 2) hif.2
    exact (h.blankTo (by omega) hend.2 (by omega) hend.2).there
  · exact not_there

theorem hashComment_ok : FormOk src (hashComment src syn) := by
  intro st c h hc
  unfold hashComment
  split_ifs with hif
  · simp only [Bool.and_eq_true, beq_iff_eq] at hif
    obtain ⟨e, he, hle, hen, hlt⟩ := lineEnd_spec h.bound
    rw [he]
    have hne : c ≠ newline := by
      rw [hif.2]
      decide
    exact (h.blankTo hle hen (hlt c hc hne) hen).there
  · exact not_there

theorem rubyComment_ok : FormOk src (rubyComment src syn) := by
  intro st c h hc
  have hi := lt_of_getElem? hc
  unfold rubyComment
  split_ifs with hif
  swap
  · exact not_there
  obtain ⟨lineStart, hstart⟩ := previousIs_ok (· == newline) hi
  obtain ⟨e, he, hlt, hle⟩ := rubyCommentEnd_spec hi
  rw [hstart, sliceFrom_eq_ok h.bound]
  dsimp only [bind, Except.bind]
  split_ifs
  · rw [he]
    exact (h.blankTo hlt.le hle hlt hle).there
  · exact not_there

theorem rawString_ok : FormOk src (rawString src syn) := by
  intro st c h hc
  have hi := lt_of_getElem? hc
  unfold rawString
  split_ifs with hif
  swap
  · exact not_there
  obtain ⟨starts, hstart⟩ := previousIs_ok (fun b => !isIdentByte b syn || b == ascii 'b') hi
  rw [hstart]
  dsimp only [bind, Except.bind]
  generalize ((src.drop (st.i + 1)).takeWhile (· == ascii '#')).length = hashes
  split_ifs with hquote
  swap
  · exact not_there
  rw [Bool.and_eq_true, beq_iff_eq] at hquote
  have hj := lt_of_getElem? hquote.2
  have hend := findSub_getD (doubleQuote :: List.replicate hashes (ascii '#'))
    (show st.i + 1 + hashes + 1 ≤ src.length from hj)
  exact (h.record true (by omega) (by omega) hend.2 (by omega) (by omega)).there

theorem tripleQuoted_ok : FormOk src (tripleQuoted src syn) := by
  intro st c h hc
  unfold tripleQuoted
  split_ifs with hif
  swap
  · exact not_there
  rw [sliceFrom_eq_ok h.bound]
  dsimp only [bind, Except.bind]
  split_ifs with hpre
  swap
  · exact not_there
  have hlen := (List.isPrefixOf_iff_prefix.mp hpre).length_le
  rw [List.length_drop, List.length_cons, List.length_cons, List.length_cons, List.length_nil] at hlen
  have hend := findSub_getD [c, c, c] (show st.i + 3 ≤ src.length by omega)
  generalize (findSub src (st.i + 3) [c, c, c]).getD src.length = close at hend ⊢
  rw [blank_eq_ok hend.1 (by rw [h.masks.length_eq]; exact hend.2)]
  refine ⟨_, rfl, fun st' heq => ?_⟩
  cases heq
  refine ⟨h.push le_rfl ?_ ?_ ⟨?_, hend.2, fun s hs => by cases hs⟩, ?_⟩
  · show close ≤ min (close + 3) src.length
    omega
  · omega
  · show st.i < close
    omega
  · show st.i < min (close + 3) src.length
    omega

theorem doubleQuoted_ok : FormOk src (doubleQuoted src syn) := by
  intro st c h hc
  have hi := lt_of_getElem? hc
  unfold doubleQuoted
  split_ifs with hif
  · have hend := scanQuoted_spec src (st.i + 1) doubleQuote syn.multilineDquote
    exact (h.record false le_rfl (by omega) hend.2 (by omega) (by omega)).there
  · exact not_there

theorem Inv.charLiteral (h : Inv src st) (hi : st.i < src.length) : Moves src st (charLiteral src st) := by
  have hend := scanQuoted_spec src (st.i + 1) apostrophe false
  exact h.blankTo (by omega) hend.2 (by omega) (by omega)

theorem singleQuoted_ok : FormOk src (singleQuoted src syn) := by
  intro st c h hc
  have hi := lt_of_getElem? hc
  unfold singleQuoted
  split_ifs with hif
  · cases syn.singleQuote with
    | str =>
      have hend := scanQuoted_spec src (st.i + 1) apostrophe syn.multilineDquote
      exact (h.record false le_rfl (by omega) hend.2 (by omega) (by omega)).there
    | char => exact (h.charLiteral hi).there
    | rustChar =>
      dsimp only
      split_ifs
      · exact (h.charLiteral hi).there
      · exact not_there
  · exact not_there

theorem backtickQuoted_ok : FormOk src (backtickQuoted src syn) := by
  intro st c h hc
  have hi := lt_of_getElem? hc
  unfold backtickQuoted
  split_ifs with hif hinterp
  · apply Moves.there
    apply h.scanTemplate (Nat.lt_succ_self _) hi
    rintro o ⟨⟩
    exact ⟨le_rfl, rfl⟩
  · rw [sliceFrom_eq_ok hi]
    dsimp only [bind, Except.bind]
    cases hp : (src.drop (st.i + 1)).findIdx? (· == backquote) with
    | none =>
      dsimp only
      exact (h.record true le_rfl hi le_rfl (by omega) (by omega)).there
    | some p =>
      have hlt := findIdx?_drop_lt hp
      have hrec : Moves src st
          (st.record src st.i (st.i + 1 + p) true (min (st.i + 1 + p + 1) src.length)) :=
        h.record true le_rfl (by omega) (by omega) (by omega) (by omega)
      exact hrec.there
  · exact not_there

theorem forms_ok : ∀ f ∈ forms src syn, FormOk src f := by
  simp only [forms, List.forall_mem_cons]
  exact ⟨slashComment_ok, hashComment_ok, rubyComment_ok, rawString_ok, tripleQuoted_ok, doubleQuoted_ok,
    singleQuoted_ok, backtickQuoted_ok, fun _ h => absurd h List.not_mem_nil⟩

/-! ### The main loop -/

theorem Inv.withInterp (h : Inv src st) (interp : List ℕ) : Inv src { st with interp := interp } :=
  ⟨h.masks, h.bound, h.sorted, h.past, h.lits⟩

theorem Inv.firstForm (h : Inv src st) {c : UInt8} (hc : src[st.i]? = some c) {fs : List Form}
    (hfs : ∀ f ∈ fs, FormOk src f) : Moves src st (firstForm fs st c) := by
  induction fs with
  | nil =>
    have hi := lt_of_getElem? hc
    refine ⟨_, rfl, ?_, Nat.lt_succ_self _⟩
    exact ⟨h.masks, hi, h.sorted, fun lit hl => (h.past lit hl).trans (Nat.le_succ _), h.lits⟩
  | cons f fs ih =>
    obtain ⟨o, ho, hmoves⟩ := hfs f List.mem_cons_self st c h hc
    rw [Boundaries.firstForm, ho]
    cases o with
    | none => exact ih fun g hg => hfs g (List.mem_cons_of_mem f hg)
    | some st' => exact ⟨st', rfl, (hmoves st' rfl).1, (hmoves st' rfl).2⟩

/-- One turn. -/
theorem Inv.lexStep (h : Inv src st) (syn : Syntax) (hi : st.i < src.length) : Moves src st (lexStep src syn st) := by
  unfold Boundaries.lexStep
  rw [byteAt_eq_ok hi]
  dsimp only [bind, Except.bind]
  cases countBrace src[st.i] st.interp with
  | none =>
    apply (h.withInterp st.interp.tail).scanTemplate (Nat.lt_succ_self _) hi
    rintro o ⟨⟩
  | some interp => exact (h.withInterp interp).firstForm (List.getElem?_eq_getElem hi) forms_ok

/-- All turns: a run with a turn for each byte left ends, with the invariant. -/
theorem Inv.lexLoop (h : Inv src st) (syn : Syntax) {fuel : ℕ} (hfuel : src.length - st.i < fuel) :
    ∃ st', lexLoop src syn fuel st = .ok st' ∧ Inv src st' := by
  induction fuel generalizing st with
  | zero => omega
  | succ fuel ih =>
    rw [Boundaries.lexLoop]
    split_ifs with hi
    · obtain ⟨st', hst', hinv, hlt⟩ := h.lexStep syn hi
      rw [hst']
      exact ih hinv (by omega)
    · exact ⟨st, rfl, h⟩

/-! ### Geometry -/

/-- What the masked text and the literals keep of the geometry of the source. -/
structure Geometry (src : List UInt8) (out : Lexed) : Prop where
  length : out.masked.length = src.length
  bytes : ∀ (k : ℕ) (a b : UInt8), src[k]? = some a → out.masked[k]? = some b → b = a ∨ b = space
  newlines : ∀ k : ℕ, out.masked[k]? = some newline ↔ src[k]? = some newline
  increasing : out.strings.Pairwise fun a b => a.opening < b.opening
  disjoint : out.strings.Pairwise fun a b => a.closing ≤ b.opening
  spans : ∀ lit ∈ out.strings, lit.opening < lit.closing ∧ lit.closing ≤ src.length
  blanked : ∀ lit ∈ out.strings, ∀ s, lit.content = some s → ∀ k, lit.opening < k → k < lit.closing →
    out.masked[k]? = some space ∨ src[k]? = some newline
  content : ∀ lit ∈ out.strings, ∀ s, lit.content = some s →
    s.toUTF8 = ((src.take lit.closing).drop (lit.opening + 1)).toByteArray

theorem newline_iff_of_masks {masked : List UInt8} (h : Masks (· == newline) space src masked) (k : ℕ) :
    masked[k]? = some newline ↔ src[k]? = some newline := by
  obtain ⟨hlen, hbytes⟩ := masks_iff.mp h
  by_cases hk : k < src.length
  · have hm : k < masked.length := hlen ▸ hk
    have hb := hbytes k _ _ (List.getElem?_eq_getElem hk) (List.getElem?_eq_getElem hm)
    rw [List.getElem?_eq_getElem hk, List.getElem?_eq_getElem hm, Option.some_inj, Option.some_inj]
    rcases hb with hb | ⟨hb, hkeep⟩
    · rw [hb]
    · rw [hb]
      constructor
      · intro h'
        exact absurd h' (by decide)
      · intro h'
        rw [h'] at hkeep
        exact absurd hkeep (by decide)
  · rw [List.getElem?_eq_none (by omega), List.getElem?_eq_none (by omega)]

theorem Inv.geometry (h : Inv src st) : Geometry src ⟨st.masked, st.strings⟩ where
  length := h.masks.length_eq
  bytes k a b ha hb := by
    rcases (masks_iff.mp h.masks).2 k a b ha hb with hba | ⟨hba, -⟩
    · exact .inl hba
    · exact .inr hba
  newlines := newline_iff_of_masks h.masks
  increasing := by
    apply List.Pairwise.imp_of_mem _ h.sorted
    intro a b ha _ hab
    have hlt := (h.lits a ha).lt
    omega
  disjoint := h.sorted
  spans lit hl := ⟨(h.lits lit hl).lt, (h.lits lit hl).le⟩
  blanked lit hl s hs k hlo hhi := by
    have hk : k < st.masked.length := by
      have := (h.lits lit hl).le
      rw [h.masks.length_eq]
      omega
    rcases ((h.lits lit hl).content s hs).1 k _ hlo hhi (List.getElem?_eq_getElem hk) with hb | hb
    · left
      show st.masked[k]? = some space
      rw [List.getElem?_eq_getElem hk, hb]
    · right
      rw [← newline_iff_of_masks h.masks, List.getElem?_eq_getElem hk, beq_iff_eq.mp hb]
  content lit hl s hs := ((h.lits lit hl).content s hs).2

/-- The lexer ends without an index or a slice out of range, for every text and every syntax, and keeps the
geometry of the text. -/
theorem lex_preserves_geometry (src : List UInt8) (syn : Syntax) :
    ∃ out, lex src syn = .ok out ∧ Geometry src out := by
  have hinit : Inv src { masked := src } :=
    ⟨masks_refl src, Nat.zero_le _, List.Pairwise.nil, fun _ h => absurd h List.not_mem_nil,
      fun _ h => absurd h List.not_mem_nil⟩
  obtain ⟨st, hst, hinv⟩ := hinit.lexLoop syn (show src.length - 0 < src.length + 1 by omega)
  unfold lex
  rw [hst]
  exact ⟨_, rfl, hinv.geometry⟩

-- the code of an interpolation stays, the two pieces of the template around it do not
example : ((syntaxFor "javascript").bind fun syn =>
      (lex ("f(`a$\x7bx\x7db`) // c".toList.map ascii) syn).toOption.map Lexed.masked) =
    some ("f(` $\x7bx\x7d `)     ".toList.map ascii) := by decide +kernel

end CodeGraph.Graph.Boundaries
