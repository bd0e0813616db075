import CodeGraph.Plugin.Definitions
import Mathlib

/-!
# All definitions at once and one by one

`allSignatures` and `extractSignatures` search with the same patterns, one with any name in the slot and one with a
single name. From each place a pattern with any name has one slot (`oneSlot`), but for a keyword before a name with a
`$` in it that a letter follows: `function a$b` defines `a` too for a reader of `a`. So both readers find a name on the
same lines where names have their `$`s at the end and no definition begins inside one of another name.
-/

namespace CodeGraph.Plugin.StopImpact

open CodeGraph.Lib
open CodeGraph.Lib.Re (Determined between_run next_of_run determined_run determined_one determined_look
  determined_empty determined_words)
open CodeGraph.Lib.Slotted (SlotAt TailAt OneSlot)
open CodeGraph.Plugin.Adopt (lineTerminator blank jsSpace)

variable {w : List Char} {c : Char} {b e i j m : ℕ} {F G : ℕ → Prop} {lang : Lang} {name : List Char}

/-! ### Characters -/

theorem isWord_range (h : isWord c = true) : 48 ≤ c.toNat ∧ c.toNat ≤ 122 := by
  simp only [isWord, Char.isAlphanum, Char.isAlpha, Char.isUpper, Char.isLower, Char.isDigit, Bool.or_eq_true,
    Bool.and_eq_true, decide_eq_true_eq, UInt32.le_iff_toNat_le] at h
  have hval : c.val.toNat = c.toNat := rfl
  have hA : 'A'.val.toNat = 65 ∧ 'Z'.val.toNat = 90 ∧ 'a'.val.toNat = 97 ∧ 'z'.val.toNat = 122 := by decide
  have h0 : '0'.val.toNat = 48 ∧ '9'.val.toNat = 57 := by decide
  rcases h with ((⟨h, h'⟩ | ⟨h, h'⟩) | ⟨h, h'⟩) | rfl
  · omega
  · omega
  · omega
  · decide

theorem nameChar_range (h : nameChar c = true) : 36 ≤ c.toNat ∧ c.toNat ≤ 122 := by
  rcases Bool.or_eq_true_iff.mp h with hword | hdollar
  · have hrange := isWord_range hword
    omega
  · rw [of_decide_eq_true hdollar]
    decide

theorem jsSpace_range (h : jsSpace c = true) : c.toNat ≤ 32 ∨ 160 ≤ c.toNat := by
  simp only [jsSpace, lineTerminator, Bool.or_eq_true, Bool.and_eq_true, decide_eq_true_eq, List.mem_cons,
    List.not_mem_nil, or_false] at h
  rcases h with ((((((rfl | rfl) | rfl) | rfl) | rfl) | rfl) | h) | ⟨h, -⟩
  all_goals first
    | (left; decide)
    | (right; decide)
    | omega

theorem isWord_of_typeStart (h : typeStart c = true) : isWord c = true := by
  simp only [typeStart, isWord, Char.isAlphanum, Bool.or_eq_true] at h ⊢
  tauto

theorem nameChar_of_isWord (h : isWord c = true) : nameChar c = true := by
  rw [nameChar, h, Bool.true_or]

theorem nameChar_of_nameStart (h : nameStart c = true) : nameChar c = true := by
  rcases Bool.or_eq_true_iff.mp h with htype | hdollar
  · exact nameChar_of_isWord (isWord_of_typeStart htype)
  · rw [nameChar, hdollar, Bool.or_true]

theorem jsSpace_of_nameChar (h : nameChar c = true) : jsSpace c = false := by
  rw [← Bool.not_eq_true]
  intro hspace
  have hname := nameChar_range h
  have hrange := jsSpace_range hspace
  omega

theorem jsSpace_of_blank (h : blank c = true) : jsSpace c = true := by
  rcases Bool.or_eq_true_iff.mp h with hblank | htab
  · rw [of_decide_eq_true hblank]
    decide
  · rw [of_decide_eq_true htab]
    decide

theorem nameChar_of_jsSpace (h : jsSpace c = true) : nameChar c = false := by
  rw [← Bool.not_eq_true]
  intro hname
  rw [jsSpace_of_nameChar hname] at h
  cases h

/-- What is no name character is told by evaluation. -/
theorem ne_of_char {p : Char → Bool} {d : Char} (hd : p d = false) : ∀ c, decide (c = d) = true → p c = false := by
  intro c hc
  rwa [of_decide_eq_true hc]

theorem char_ne {p : Char → Bool} {d : Char} (hd : p d = false) : ∀ c, p c = true → decide (c = d) = false := by
  rintro c hc
  refine decide_eq_false ?_
  rintro rfl
  rw [hc] at hd
  cases hd

theorem Next.notSpace (h : Next w nameChar i) : ¬Next w jsSpace i := h.disjoint fun _ => jsSpace_of_nameChar

theorem Next.notBlank (h : ¬Next w jsSpace i) : ¬Next w blank i :=
  fun hblank => h (hblank.mono fun _ => jsSpace_of_blank)

theorem Next.nameChar (h : Next w nameStart i) : Next w nameChar i := h.mono fun _ => nameChar_of_nameStart

/-! ### The slot -/

theorem between_anyName : anyName.toRe.between w b e ↔
    Next w nameStart b ∧ b + 1 ≤ e ∧ ∀ m, b ≤ m → m < e → Next w nameChar m := by
  constructor
  · rintro ⟨m, ⟨hstart, rfl⟩, hrun⟩
    obtain ⟨hle, -, hchars⟩ := between_run.mp hrun
    refine ⟨hstart, by omega, fun m hm hm' => ?_⟩
    rcases Nat.eq_or_lt_of_le hm with rfl | hlt
    · exact Next.nameChar hstart
    · exact hchars m hlt hm'
  · rintro ⟨hstart, hle, hchars⟩
    refine ⟨b + 1, ⟨hstart, rfl⟩, between_run.mpr ⟨by omega, (fun m hm => nomatch hm), fun m hm => ?_⟩⟩
    exact hchars m (by omega)

/-- A name is a run of its characters. -/
theorem run_of_anyName (h : anyName.toRe.between w b e) : (Re.rep (.one nameChar) 1 none).between w b e := by
  obtain ⟨-, hle, hchars⟩ := between_anyName.mp h
  exact between_run.mpr ⟨hle, (fun m hm => nomatch hm), hchars⟩

theorem anyName_determined (h : ∀ e, F e → ¬Next w nameChar e) : anyName.toRe.Determined w F := by
  intro i j j' hj hF hj' hF'
  exact determined_run h (run_of_anyName hj) hF (run_of_anyName hj') hF'

/-- `[A-Za-z_$][\w$]*` -/
def Identifier (name : List Char) : Prop := name.head?.any nameStart = true ∧ name.all nameChar = true

theorem next_of_prefix (h : name <+: w.drop b) {n : ℕ} (hn : n < name.length) : w[b + n]? = some name[n] := by
  obtain ⟨t, ht⟩ := h
  rw [← List.getElem?_drop, ← ht, List.getElem?_append_left hn, List.getElem?_eq_getElem hn]

theorem backtracks_anyName : anyName.Backtracks := ⟨trivial, trivial, (nomatch ·)⟩

/-- A name in the slot is any name there that is this one. -/
theorem mem_ends_word (hname : Identifier name) (b e : ℕ) : e ∈ (Pattern.word name).ends w b ↔
    e ∈ anyName.ends w b ∧ decide ((w.take e).drop b = name) = true := by
  obtain ⟨c, rest, rfl⟩ : ∃ c rest, name = c :: rest := by
    cases name with
    | nil => cases hname.1
    | cons c rest => exact ⟨c, rest, rfl⟩
  -- past the text neither pattern matches
  rcases Nat.lt_or_ge w.length b with hout | hb
  · have hnone : w[b]? = none := List.getElem?_eq_none hout.le
    have hword : (Pattern.word (c :: rest)).ends w b = [] := by
      show (Pattern.seq (.one (· = c)) (.word rest)).ends w b = []
      rw [Pattern.ends, Pattern.ends, hnone]
      rfl
    have hany : anyName.ends w b = [] := by
      rw [anyName, Pattern.ends, Pattern.ends, hnone]
      rfl
    rw [hword, hany]
    simp
  rw [Pattern.mem_ends Pattern.backtracks_word hb, Pattern.between_word,
    Pattern.mem_ends backtracks_anyName hb, between_anyName, decide_eq_true_iff]
  constructor
  · rintro ⟨hpre, rfl⟩
    have hnext : ∀ n, n < (c :: rest).length → Next w nameChar (b + n) := fun n hn =>
      ⟨_, next_of_prefix hpre hn, List.all_eq_true.mp hname.2 _ (List.getElem_mem hn)⟩
    refine ⟨⟨⟨c, next_of_prefix hpre (Nat.succ_pos _), hname.1⟩, ?_, fun m hm hm' => ?_⟩, ?_⟩
    · rw [List.length_cons]
      omega
    · obtain ⟨n, rfl⟩ := Nat.exists_eq_add_of_le hm
      exact hnext n (by omega)
    · rw [List.drop_take, Nat.add_sub_cancel_left]
      exact (List.prefix_iff_eq_take.mp hpre).symm
  · rintro ⟨⟨-, hle, hchars⟩, hslice⟩
    have hlt : e - 1 < w.length := (hchars (e - 1) (by omega) (by omega)).lt
    rw [List.drop_take] at hslice
    have hlength : (c :: rest).length = e - b := by
      rw [← hslice, List.length_take, List.length_drop]
      omega
    refine ⟨?_, by omega⟩
    rw [← hslice]
    exact List.take_prefix _ _

/-! ### One slot from each place -/

theorem next_of_spaces {p q : Char → Bool} (hspace : ∀ c, q c = true → p c = true)
    (h : (star (.one q)).toRe.between w i j) (hj : Next w p j) : Next w p i := by
  obtain ⟨hle, -, hchars⟩ := between_run.mp h
  rcases Nat.eq_or_lt_of_le hle with heq | hlt
  · rwa [← heq] at hj
  · exact (hchars i (Nat.le_refl i) hlt).mono hspace

/-- Runs of blanks end where something else follows. -/
theorem spaces_determined {least : ℕ} (h : ∀ j, F j → ¬Next w jsSpace j) :
    (Pattern.rep space least none .greedy).toRe.Determined w F := determined_run h

theorem bracketed_determined {opener closer : Char} : (bracketed opener closer).toRe.Determined w F := by
  refine determined_one.seq ((determined_run ?_).seq determined_one)
  rintro m ⟨j, ⟨hclose, -⟩, -⟩
  refine Next.disjoint hclose fun c hc => ?_
  have heq : c = closer := of_decide_eq_true hc
  simp [heq]

/-- What is between brackets, before something that is neither a blank nor such a bracket. -/
theorem optBracketed_determined {has : Bool} {opener closer : Char} (hspace : ∀ j, F j → ¬Next w jsSpace j)
    (hopen : ∀ j, F j → ¬Next w (fun c => c = opener) j) : (optBracketed has opener closer).toRe.Determined w F := by
  unfold optBracketed
  split_ifs
  · refine (bracketed_determined.seq (spaces_determined hspace)).opt ?_
    rintro i j hi ⟨m, ⟨n, ⟨hbracket, -⟩, -⟩, -⟩
    exact absurd hbracket (hopen i hi)
  · exact determined_empty

theorem next_of_optBracketed {has : Bool} {opener closer : Char} {p : Char → Bool}
    (h : (optBracketed has opener closer).toRe.between w i j) (hj : Next w p j) :
    Next w (fun c => p c || c = opener) i := by
  have hp : Next w (fun c => p c || c = opener) j := hj.mono fun c hc => by rw [hc, Bool.true_or]
  unfold optBracketed at h
  split_ifs at h
  · rcases Re.between_opt.mp h with rfl | ⟨m, ⟨n, ⟨hbracket, -⟩, -⟩, -⟩
    · exact hp
    · exact Next.mono hbracket fun c hc => by rw [show decide (c = opener) = true from hc, Bool.or_true]
  · obtain rfl : i = j := h
    exact hp

/-- The keywords of the profiles end where blanks begin. -/
def Keyword (keyword : Pattern Char) : Prop :=
  keyword.Backtracks ∧ ∀ w, keyword.toRe.Determined w fun m => Next w jsSpace m

theorem keywordLead_determined {keyword : Pattern Char} (hkeyword : Keyword keyword)
    (hF : ∀ j, F j → Next w nameStart j) : (keywordLead lang keyword).toRe.Determined w F := by
  have hnot : ∀ d : Char, nameStart d = false → ∀ j, F j → ¬Next w (fun c => c = d) j := by
    intro d hd j hj
    exact (hF j hj).disjoint (char_ne hd)
  -- What the places before the type parameters and before the receiver begin with.
  have htypes : ∀ m, (∃ j, (optBracketed lang.typeParams '<' '>').toRe.between w m j ∧ F j) →
      Next w (fun c => nameStart c || c = '<') m := by
    rintro m ⟨j, hmj, hj⟩
    exact next_of_optBracketed hmj (hF j hj)
  have hreceiver : ∀ m, (∃ j, (Re.seq (optBracketed lang.receiver '(' ')').toRe
      (optBracketed lang.typeParams '<' '>').toRe).between w m j ∧ F j) →
      Next w (fun c => (nameStart c || c = '<') || c = '(') m := by
    rintro m ⟨j, ⟨k, hmk, hkj⟩, hj⟩
    exact next_of_optBracketed hmk (htypes k ⟨j, hkj, hj⟩)
  have hmark : ∀ c, ((nameStart c || c = '<') || c = '(') = true → jsSpace c = false := by
    intro c hc
    simp only [Bool.or_eq_true, decide_eq_true_eq] at hc
    rcases hc with (hstart | rfl) | rfl
    · exact jsSpace_of_nameChar (nameChar_of_nameStart hstart)
    · decide
    · decide
  refine (determined_look _).seq (((hkeyword.2 w).mono ?_).seq ((spaces_determined ?_).seq
    ((optBracketed_determined ?_ ?_).seq (optBracketed_determined ?_ (hnot '<' (by decide))))))
  · rintro m ⟨j, ⟨k, hspaces, -⟩, -⟩
    exact next_of_run hspaces
  · exact fun m hm => (hreceiver m hm).disjoint hmark
  · exact fun m hm => (htypes m hm).disjoint fun c hc => hmark c (by rw [hc, Bool.true_or])
  · exact fun m hm => (htypes m hm).disjoint (char_ne (by decide))
  · exact fun j hj => Next.notSpace (Next.nameChar (hF j hj))

/-! ### Names with dollars -/

/-- No letter, digit or underscore behind a `$`. -/
def dollarsLast (name : List Char) : Bool := (name.dropWhile isWord).all fun c => c = '$'

theorem next_iff {p : Char → Bool} : Next w p i ↔ w[i]?.any p = true := by
  rw [Option.any_eq_true]
  exact Iff.rfl

theorem mem_dropWhile {f : Char → Bool} {l l' : List Char} {a d : Char} (ha : f a = false) (hd : d ∈ l') :
    d ∈ (l ++ a :: l').dropWhile f := by
  induction l with
  | nil =>
    rw [List.nil_append, List.dropWhile_cons_of_neg (by rw [ha]; exact Bool.false_ne_true)]
    exact List.mem_cons_of_mem a hd
  | cons x l ih =>
    rw [List.cons_append, List.dropWhile_cons]
    split_ifs
    · exact ih
    · simp [hd]

/-- Behind a character of a name that is no word character there is none either. -/
theorem not_word_succ (hlast : dollarsLast ((w.drop b).takeWhile nameChar) = true) (hb : b ≤ m)
    (hchars : ∀ k, b ≤ k → k ≤ m + 1 → Next w nameChar k) (hm : ¬Next w isWord m) : ¬Next w isWord (m + 1) := by
  rintro ⟨d, hd, hword⟩
  obtain ⟨a, ha, hname⟩ := hchars m hb (Nat.le_succ m)
  have hlt := (List.getElem?_eq_some_iff.mp ha).1
  have hlt' := (List.getElem?_eq_some_iff.mp hd).1
  have hsplit : w.drop b = (w.drop b).take (m - b) ++ a :: d :: w.drop (m + 2) := by
    have hdrop : w.drop m = a :: d :: w.drop (m + 2) := by
      rw [List.drop_eq_getElem_cons hlt, List.drop_eq_getElem_cons hlt', (List.getElem?_eq_some_iff.mp ha).2,
        (List.getElem?_eq_some_iff.mp hd).2]
    rw [← hdrop]
    nth_rewrite 1 [← List.take_append_drop (m - b) (w.drop b)]
    rw [List.drop_drop, Nat.add_sub_cancel' hb]
  have hfront : ∀ c ∈ (w.drop b).take (m - b), nameChar c = true := by
    intro c hc
    obtain ⟨k, hk, rfl⟩ := List.mem_iff_getElem.mp hc
    rw [List.length_take] at hk
    obtain ⟨c, hc, hname⟩ := hchars (b + k) (Nat.le_add_right b k) (by omega)
    rw [List.getElem_take, List.getElem_drop]
    rwa [(List.getElem?_eq_some_iff.mp hc).2]
  -- the name goes on over both characters
  have hrun : (w.drop b).takeWhile nameChar =
      (w.drop b).take (m - b) ++ a :: d :: (w.drop (m + 2)).takeWhile nameChar := by
    nth_rewrite 1 [hsplit]
    rw [List.takeWhile_append_of_pos hfront, List.takeWhile_cons_of_pos hname,
      List.takeWhile_cons_of_pos (nameChar_of_isWord hword)]
  have hnot : isWord a = false := by
    rw [← Bool.not_eq_true]
    exact fun h => hm ⟨a, ha, h⟩
  rw [hrun, dollarsLast, List.all_eq_true] at hlast
  -- behind a dollar there are only dollars
  have hdollar : d = '$' := of_decide_eq_true (hlast d (mem_dropWhile hnot List.mem_cons_self))
  rw [hdollar] at hword
  exact absurd hword (by decide)

/-- Where `$`s are last in a name, it ends at one word boundary. -/
theorem eq_of_boundary {c c' e e' : ℕ} (hlast : dollarsLast ((w.drop b).takeWhile nameChar) = true)
    (hc : anyName.toRe.between w b c) (he : wordBoundary.toRe.between w c e) (hc' : anyName.toRe.between w b c')
    (he' : wordBoundary.toRe.between w c' e') : c = c' := by
  -- at the end of a name the boundary tests the last character against the next
  have hboundary : ∀ {c e}, anyName.toRe.between w b c → wordBoundary.toRe.between w c e →
      (Next w isWord (c - 1) ↔ ¬Next w isWord c) := by
    intro c e hc he
    obtain ⟨-, hle, hchars⟩ := between_anyName.mp hc
    have hlt : c - 1 < w.length := (hchars (c - 1) (by omega) (by omega)).lt
    have hbefore : (w.take c).getLast? = w[c - 1]? := by
      rw [List.getLast?_eq_getElem?, List.length_take, Nat.min_eq_left (by omega), List.getElem?_take_of_lt (by omega)]
    have htest : ((w.take c).getLast?.any isWord != (w.drop c).head?.any isWord) = true := he.2
    rw [hbefore, List.head?_drop] at htest
    rw [next_iff, next_iff]
    revert htest
    cases w[c - 1]?.any isWord <;> cases w[c]?.any isWord <;> simp
  -- the two ends are alike, so it is enough that neither is before the other
  suffices hlt : ∀ {c c' e e'}, anyName.toRe.between w b c → wordBoundary.toRe.between w c e →
      anyName.toRe.between w b c' → wordBoundary.toRe.between w c' e' → ¬c < c' by
    have h := hlt hc he hc' he'
    have h' := hlt hc' he' hc he
    omega
  intro c c' e e' hc he hc' he' hcc
  obtain ⟨-, hle, -⟩ := between_anyName.mp hc
  obtain ⟨-, -, hchars⟩ := between_anyName.mp hc'
  have hstep : ∀ m, b ≤ m → m + 1 < c' → ¬Next w isWord m → ¬Next w isWord (m + 1) := fun m hm hm' =>
    not_word_succ hlast hm fun k hk hk' => hchars k hk (by omega)
  -- from the boundary on the characters are all of one kind, as the dollars come last
  by_cases hword : Next w isWord c
  · have hbefore : ¬Next w isWord (c - 1) := fun h => ((hboundary hc he).mp h) hword
    have hnot := hstep (c - 1) (by omega) (by omega) hbefore
    rw [Nat.sub_add_cancel (by omega)] at hnot
    exact hnot hword
  · have hrest : ∀ m, c ≤ m → m < c' → ¬Next w isWord m := by
      intro m hm
      induction m, hm using Nat.le_induction with
      | base => exact fun _ => hword
      | succ m hm ih => exact fun hm' => hstep m (by omega) hm' (ih (by omega))
    have hend : Next w isWord c' := by
      by_contra hnot
      exact hrest (c' - 1) (by omega) (by omega) ((hboundary hc' he').mpr hnot)
    have hnot := @not_word_succ w b (c' - 1) hlast (by omega) ?_ (hrest (c' - 1) (by omega) (by omega))
    · rw [Nat.sub_add_cancel (by omega)] at hnot
      exact hnot hend
    · intro k hk hk'
      rcases Nat.lt_or_ge k c' with hkc | hkc
      · exact hchars k hk hkc
      · obtain rfl : k = c' := by omega
        exact hend.mono fun _ => nameChar_of_isWord

/-! ### The patterns -/

theorem next_of_slotAt {d : Slotted Char} (h : d.SlotAt w anyName b) : Next w nameStart b := by
  obtain ⟨e, he, -⟩ := h
  exact (between_anyName.mp he).1

theorem backtracks_optBracketed {has : Bool} {opener closer : Char} :
    (optBracketed has opener closer).Backtracks := by
  unfold optBracketed
  split_ifs
  · exact ⟨⟨⟨trivial, ⟨trivial, (nomatch ·)⟩, trivial⟩, trivial, (nomatch ·)⟩, (nomatch ·)⟩
  · trivial

theorem keyword_oneSlot {keyword : Pattern Char} (hkeyword : Keyword keyword) (hi : i ≤ w.length)
    (hnames : ∀ a b, a ≤ w.length → b ∈ (keywordLead lang keyword).ends w a → Next w nameStart b →
      dollarsLast ((w.drop b).takeWhile nameChar) = true) :
    (keywordPattern lang keyword).OneSlot w anyName i := by
  have hbacktracks : (keywordPattern lang keyword).Backtracks :=
    ⟨trivial, ⟨trivial, hkeyword.1, ⟨trivial, (nomatch ·)⟩, backtracks_optBracketed, backtracks_optBracketed⟩, trivial⟩
  refine Slotted.oneSlot_of_determined hbacktracks backtracks_anyName hi determined_empty
    (keywordLead_determined hkeyword fun b => next_of_slotAt) ?_
  rintro a b c c' ha hb hc ⟨e, he⟩ hc' ⟨e', he'⟩
  exact eq_of_boundary (hnames a b ha hb (between_anyName.mp hc).1) hc he hc' he'

/-- A name ends before the blanks and the mark behind it. -/
theorem not_nameChar_of_mark {x : Char} {e d : ℕ} (hx : nameChar x = false)
    (hspaces : (star space).toRe.between w e d) (hmark : Next w (fun c => c = x) d) : ¬Next w nameChar e := by
  have hnext : Next w (fun c => jsSpace c || c = x) d := hmark.mono fun c hc => by rw [hc, Bool.or_true]
  refine (next_of_spaces (fun c hc => by rw [hc, Bool.true_or]) hspaces hnext).disjoint fun c hc => ?_
  rcases Bool.or_eq_true_iff.mp hc with hspace | heq
  · exact nameChar_of_jsSpace hspace
  · rwa [of_decide_eq_true heq]

theorem binding_oneSlot (hi : i ≤ w.length) : bindingPattern.OneSlot w anyName i := by
  have hbacktracks : bindingPattern.Backtracks := by
    refine ⟨trivial, ⟨trivial, Pattern.backtracks_words, trivial, (nomatch ·)⟩, ⟨trivial, (nomatch ·)⟩, trivial,
      ⟨trivial, (nomatch ·)⟩, ⟨⟨Pattern.backtracks_word, trivial, (nomatch ·)⟩, (nomatch ·)⟩,
      ⟨Pattern.backtracks_word, trivial⟩, ⟨⟨trivial, ⟨trivial, (nomatch ·)⟩, trivial⟩, ⟨trivial, (nomatch ·)⟩,
        Pattern.backtracks_word⟩, trivial, ⟨trivial, (nomatch ·)⟩, ⟨trivial, (nomatch ·)⟩, Pattern.backtracks_word⟩
  have htail : ∀ c, bindingPattern.TailAt w c → ¬Next w nameChar c := by
    rintro c ⟨e, m, hspaces, n, ⟨hequals, -⟩, -⟩
    exact not_nameChar_of_mark (by decide) hspaces hequals
  have hwords : ["const".toList, "let".toList, "var".toList].all (fun s => s.all nameChar) = true := by decide
  refine Slotted.oneSlot_of_determined hbacktracks backtracks_anyName hi determined_empty ?_
    fun a b c c' _ _ hc hTail hc' hTail' => anyName_determined htail hc hTail hc' hTail'
  refine (determined_look _).seq ((determined_words (fun s hs => List.all_eq_true.mp (List.all_eq_true.mp hwords s hs)) ?_).seq (spaces_determined ?_))
  · rintro m ⟨j, hspaces, -⟩
    exact (next_of_run hspaces).disjoint fun c => nameChar_of_jsSpace
  · exact fun j hj => Next.notSpace (Next.nameChar (next_of_slotAt hj))

/-- Blanks from one place on are followed by one thing. -/
theorem not_paren_of_blanks {p : Char → Bool} {d : ℕ} {least : ℕ} (hp : p '(' = false)
    (hd : (star (.one p)).toRe.between w i d) (hparen : Next w (fun c => c = '(') d)
    (hj : (Re.rep (.one p) least none).between w i j) (hblank : ¬Next w p j) : Next w (fun c => c = '(') j := by
  have hj' : (Re.rep (.one p) 0 none).between w i j := by
    obtain ⟨hle, -, hchars⟩ := between_run.mp hj
    exact between_run.mpr ⟨by omega, (fun m hm => nomatch hm), hchars⟩
  have hsame : d = j := determined_run (fun _ h => h) hd (hparen.disjoint (ne_of_char hp)) hj' hblank
  rwa [← hsame]

/-! ### Methods -/

theorem backtracks_methodPattern : methodPattern.Backtracks :=
  ⟨trivial, ⟨trivial, ⟨trivial, (nomatch ·)⟩, ⟨⟨Pattern.backtracks_words, trivial, (nomatch ·)⟩, (nomatch ·)⟩,
    trivial, (nomatch ·)⟩, ⟨trivial, (nomatch ·)⟩, trivial, ⟨trivial, (nomatch ·)⟩, trivial, ⟨trivial, (nomatch ·)⟩,
    ⟨⟨trivial, ⟨trivial, (nomatch ·)⟩, trivial, (nomatch ·)⟩, (nomatch ·)⟩, trivial, ⟨trivial, (nomatch ·)⟩, trivial⟩

/-- Behind the name of a method there are blanks and the parenthesis. -/
theorem paren_of_tailAt {e : ℕ} (h : methodPattern.TailAt w e) :
    ∃ d, (star space).toRe.between w e d ∧ Next w (fun c => c = '(') d := by
  obtain ⟨-, d, hspaces, n, ⟨hparen, -⟩, -⟩ := h
  exact ⟨d, hspaces, hparen⟩

theorem ends_of_tailAt {e : ℕ} (h : methodPattern.TailAt w e) : ¬Next w nameChar e := by
  obtain ⟨d, hspaces, hparen⟩ := paren_of_tailAt h
  exact not_nameChar_of_mark (by decide) hspaces hparen

theorem modifiers_letters : ∀ s ∈ modifiers, s ≠ [] ∧ ∀ c ∈ s, nameStart c = true := by
  have hall : modifiers.all (fun s => s ≠ [] ∧ s.all nameStart) = true := by decide
  intro s hs
  obtain ⟨hne, hchars⟩ := of_decide_eq_true (List.all_eq_true.mp hall s hs)
  exact ⟨hne, List.all_eq_true.mp hchars⟩

/-- A modifier is a name, and blanks behind it. -/
theorem name_of_modifier (h : (Pattern.seq (.words modifiers) (plus space)).toRe.between w i j) : ∃ t,
    anyName.toRe.between w i t ∧ (plus space).toRe.between w t j ∧ Next w nameStart i := by
  obtain ⟨t, hword, hspaces⟩ := h
  obtain ⟨s, hs, hpre, rfl⟩ := Pattern.between_words.mp hword
  obtain ⟨hne, hchars⟩ := modifiers_letters s hs
  have hpos := List.length_pos_iff.mpr hne
  have hfirst : Next w nameStart i := ⟨_, next_of_prefix hpre hpos, hchars _ (List.getElem_mem hpos)⟩
  refine ⟨_, between_anyName.mpr ⟨hfirst, by omega, fun m hm hm' => ?_⟩, hspaces, hfirst⟩
  obtain ⟨n, rfl⟩ := Nat.exists_eq_add_of_le hm
  have hn : n < s.length := by omega
  exact ⟨_, next_of_prefix hpre hn, nameChar_of_nameStart (hchars _ (List.getElem_mem hn))⟩

/-- What a method begins with behind its modifiers. -/
def startsMethod (c : Char) : Bool := nameStart c || c = '*'

theorem jsSpace_of_startsMethod (h : startsMethod c = true) : jsSpace c = false := by
  rcases Bool.or_eq_true_iff.mp h with hstart | heq
  · exact jsSpace_of_nameChar (nameChar_of_nameStart hstart)
  · exact ne_of_char (by decide) c heq

theorem startsMethod_of_slotAt {u : ℕ} (h : ∃ b, (opt (char '*')).toRe.between w u b ∧ methodPattern.SlotAt w anyName b) :
    Next w startsMethod u := by
  obtain ⟨b, hub, hb⟩ := h
  rcases Re.between_opt.mp hub with rfl | ⟨hstar, -⟩
  · exact (next_of_slotAt hb).mono fun c hc => by rw [startsMethod, hc, Bool.true_or]
  · exact Next.mono hstar fun c hc => by rw [startsMethod, show decide (c = '*') = true from hc, Bool.or_true]

theorem startsMethod_of_modifier (h : (Pattern.seq (.words modifiers) (plus space)).toRe.between w i j) :
    Next w startsMethod i := by
  obtain ⟨t, -, -, hstart⟩ := name_of_modifier h
  exact hstart.mono fun c hc => by rw [startsMethod, hc, Bool.true_or]

/-- The modifiers end in one place before a method. -/
theorem modifiers_determined : (upTo 4 (.seq (.words modifiers) (plus space))).toRe.Determined w fun u =>
    ∃ b, (opt (char '*')).toRe.between w u b ∧ methodPattern.SlotAt w anyName b := by
  refine Determined.rep (G := Next w startsMethod) ?_ (fun _ => startsMethod_of_slotAt)
    (fun i j hij _ => startsMethod_of_modifier hij) ?_
  · refine (determined_words (fun s hs c hc => nameChar_of_nameStart ((modifiers_letters s hs).2 c hc)) ?_).seq
      (spaces_determined ?_)
    · rintro m ⟨j, hspaces, -⟩
      exact (next_of_run hspaces).disjoint fun c => nameChar_of_jsSpace
    · exact fun j hj => hj.disjoint fun c => jsSpace_of_startsMethod
  · rintro i j ⟨b, hib, hb⟩ hij hj
    obtain ⟨t, hname, hspaces, hstart⟩ := name_of_modifier hij
    rcases Re.between_opt.mp hib with rfl | ⟨hstar, -⟩
    · -- the word is the name then, and what is behind the blanks is its parenthesis
      obtain ⟨c, hc, hTail⟩ := hb
      have hnot : ¬Next w nameChar t := (next_of_run hspaces).disjoint fun c => nameChar_of_jsSpace
      obtain rfl : c = t := anyName_determined (fun _ h => h) hc (ends_of_tailAt hTail) hname hnot
      obtain ⟨d, hd, hparen⟩ := paren_of_tailAt hTail
      exact hj.disjoint (char_ne (by decide))
        (not_paren_of_blanks (by decide) hd hparen hspaces (hj.disjoint fun c => jsSpace_of_startsMethod))
    · exact hstart.disjoint (char_ne (by decide)) hstar

theorem method_oneSlot (hi : i ≤ w.length) : methodPattern.OneSlot w anyName i := by
  refine Slotted.oneSlot_of_determined backtracks_methodPattern backtracks_anyName hi determined_empty ?_
    fun a b c c' _ _ hc hTail hc' hTail' => anyName_determined (fun _ => ends_of_tailAt) hc hTail hc' hTail'
  refine (determined_look _).seq ((determined_run ?_).seq (modifiers_determined.seq (determined_one.opt ?_)))
  · -- behind the blanks of the line there is a modifier, or the method
    rintro m ⟨j, ⟨u, hmu, huj⟩, hj⟩
    have hu := startsMethod_of_slotAt ⟨j, huj, hj⟩
    have hm : Next w startsMethod m := by
      obtain ⟨k, -, -, hk⟩ := hmu
      cases k with
      | zero =>
        obtain rfl : m = u := hk
        exact hu
      | succ k =>
        obtain ⟨n, hmn, -⟩ := hk
        exact startsMethod_of_modifier hmn
    exact Next.notBlank (hm.disjoint fun c => jsSpace_of_startsMethod)
  · rintro u j hu ⟨hstar, -⟩ -
    exact (next_of_slotAt hu).disjoint (char_ne (by decide)) hstar

theorem typeChar_range (h : typeChar c = true) : 36 ≤ c.toNat := by
  rcases Bool.or_eq_true_iff.mp h with hword | hmem
  · exact Nat.le_trans (by decide) (isWord_range hword).1
  · have hall : ['<', '>', '[', ']', ',', '.', '*', '&', ':', '?'].all (fun c => decide (36 ≤ c.toNat)) = true := by decide
    exact of_decide_eq_true (List.all_eq_true.mp hall c (of_decide_eq_true hmem))

theorem blank_of_typeChar (h : typeChar c = true) : blank c = false := by
  rw [← Bool.not_eq_true]
  intro hblank
  have hrange := typeChar_range h
  have hsmall : c.toNat ≤ 32 := by
    rcases Bool.or_eq_true_iff.mp hblank with heq | heq
    · rw [of_decide_eq_true heq]
      decide
    · rw [of_decide_eq_true heq]
      decide
  omega

theorem blank_of_nameStart (h : nameStart c = true) : blank c = false := by
  rw [← Bool.not_eq_true]
  intro hblank
  have hspace := jsSpace_of_blank hblank
  rw [jsSpace_of_nameChar (nameChar_of_nameStart h)] at hspace
  cases hspace

theorem typed_oneSlot (hi : i ≤ w.length) : typedPattern.OneSlot w anyName i := by
  have hbacktracks : typedPattern.Backtracks :=
    ⟨⟨trivial, trivial, (nomatch ·)⟩, ⟨⟨trivial, ⟨trivial, (nomatch ·)⟩, trivial, (nomatch ·)⟩, (nomatch ·)⟩,
      ⟨trivial, (nomatch ·)⟩, trivial⟩
  have htail : ∀ c, typedPattern.TailAt w c →
      ∃ d, (star (.one blank)).toRe.between w c d ∧ Next w (fun c => c = '(') d := by
    rintro c ⟨e, d, hblanks, hparen, -⟩
    exact ⟨d, hblanks, hparen⟩
  have hbehind : ∀ c, typedPattern.TailAt w c → Next w (fun c => blank c || c = '(') c := by
    intro c hc
    obtain ⟨d, hblanks, hparen⟩ := htail c hc
    exact next_of_spaces (fun c hc => by rw [hc, Bool.true_or]) hblanks
      (hparen.mono fun c hc => by rw [hc, Bool.or_true])
  have hends : ∀ c, typedPattern.TailAt w c → ¬Next w nameChar c := by
    intro c hc
    refine (hbehind c hc).disjoint fun c hc => ?_
    rcases Bool.or_eq_true_iff.mp hc with hblank | heq
    · exact nameChar_of_jsSpace (jsSpace_of_blank hblank)
    · exact ne_of_char (by decide) c heq
  have hstart : ∀ b, typedPattern.SlotAt w anyName b → Next w nameStart b := fun b => next_of_slotAt
  have hfirst : ∀ i j, (Pattern.seq (.one typeStart) (.seq (star (.one typeChar)) (plus (.one blank)))).toRe.between w i j →
      Next w nameStart i := by
    rintro i j ⟨m, ⟨hnext, -⟩, -⟩
    exact Next.mono hnext fun c hc => by rw [nameStart, hc, Bool.true_or]
  have hlead : typedPattern.lead.toRe.Determined w (typedPattern.SlotAt w anyName) := by
    refine Determined.rep (G := Next w nameStart) ?_ hstart (fun i j hij _ => hfirst i j hij) ?_
    · refine determined_one.seq ((determined_run ?_).seq (determined_run fun j hj => ?_))
      · rintro m ⟨j, hblanks, -⟩
        refine (next_of_run hblanks).disjoint fun c hc => ?_
        rw [← Bool.not_eq_true]
        exact fun htype => absurd hc (by rw [blank_of_typeChar htype]; exact Bool.false_ne_true)
      · exact hj.disjoint fun c => blank_of_nameStart
    · rintro i j ⟨c, hc, hTail⟩ ⟨m, ⟨htype, rfl⟩, t, htypes, hblanks⟩ hj
      -- The type would be the name, so what is behind the blanks is its parenthesis.
      obtain ⟨-, hle, hname⟩ := between_anyName.mp hc
      obtain ⟨hle', -, hchars⟩ := between_run.mp htypes
      have ht := next_of_run hblanks
      have hsame : c = t := by
        rcases Nat.lt_trichotomy c t with hlt | heq | hlt
        · refine absurd (hbehind c hTail) ((hchars c (by omega) hlt).disjoint fun d hd => ?_)
          rw [blank_of_typeChar hd, Bool.false_or]
          exact char_ne (by decide) d hd
        · exact heq
        · refine absurd (hname t (by omega) hlt) (ht.disjoint fun d hd => ?_)
          exact nameChar_of_jsSpace (jsSpace_of_blank hd)
      obtain ⟨d, hd, hparen⟩ := htail c hTail
      rw [← hsame] at hblanks
      exact hj.disjoint (char_ne (by decide))
        (not_paren_of_blanks (by decide) hd hparen hblanks (hj.disjoint fun c => blank_of_nameStart))
  refine Slotted.oneSlot_of_determined hbacktracks backtracks_anyName hi ?_ hlead
    fun a b c c' _ _ hc hTail hc' hTail' => anyName_determined hends hc hTail hc' hTail'
  refine (determined_look _).seq (determined_run ?_)
  rintro a ⟨b, ⟨k, hk, -, hturns⟩, -⟩
  obtain ⟨k, rfl⟩ := Nat.exists_eq_add_of_le' hk
  obtain ⟨m, hm, -⟩ := hturns
  exact (hfirst a m hm).disjoint fun c => blank_of_nameStart

/-! ### The profiles -/

theorem keyword_of_langs : ∀ l ∈ langs, ∀ keyword, l.2.keyword = some keyword → Keyword keyword := by
  have hword : ∀ s : String, Keyword (.word s.toList) := fun s => ⟨Pattern.backtracks_word, fun w => Re.determined_word⟩
  have hstar : Keyword (.seq (.word "function".toList) (opt (char '*'))) := by
    refine ⟨⟨Pattern.backtracks_word, trivial, (nomatch ·)⟩, fun w => Re.determined_word.seq (determined_one.opt ?_)⟩
    rintro i j hspace ⟨hstar, -⟩ -
    exact hspace.disjoint (char_ne (by decide)) hstar
  simp only [langs, List.forall_mem_cons, StopImpact.keyword, Option.some_inj, forall_eq', List.not_mem_nil, false_imp_iff,
    implies_true, and_true, hword, hstar, reduceCtorEq]

theorem lang_mem {ext : List Char} (h : langOf ext = some lang) : ∃ exts, (exts, lang) ∈ langs := by
  obtain ⟨⟨exts, lang'⟩, hfind, rfl⟩ := Option.map_eq_some_iff.mp h
  exact ⟨exts, List.mem_of_find?_eq_some hfind⟩

/-- The text gives every name one reading: behind the lead of a keyword definition there is no word character behind a
`$`, and within a definition of a pattern none of another name begins. -/
structure OneReading (text : List Char) (lang : Lang) : Prop where
  dollars : ∀ keyword ∈ lang.keyword, ∀ a ≤ text.length, ∀ b ∈ (keywordLead lang keyword).ends text a,
    (text.drop b).head?.any nameStart = true → dollarsLast ((text.drop b).takeWhile nameChar) = true
  apart : ∀ d ∈ definitionPatterns lang, ∀ j ≤ text.length, ∀ i < j, ∀ m ∈ d.2.matchAt text anyName i,
    ∀ m' ∈ d.2.matchAt text anyName j, j < m.stop → Slotted.text text m' = Slotted.text text m

theorem oneSlot {text ext : List Char} (hlang : langOf ext = some lang) (hone : OneReading text lang)
    {d : Bool × Slotted Char} (hd : d ∈ definitionPatterns lang) (hi : i ≤ text.length) :
    d.2.OneSlot text anyName i := by
  obtain ⟨exts, hmem⟩ := lang_mem hlang
  rcases List.mem_append.mp hd with hkeyword | hothers
  · obtain ⟨keyword, hmember, rfl⟩ := List.mem_map.mp hkeyword
    have hsome : lang.keyword = some keyword := Option.mem_toList.mp hmember
    refine keyword_oneSlot (keyword_of_langs _ hmem keyword hsome) hi fun a b ha hb hstart => ?_
    refine hone.dollars keyword hsome a ha b hb ?_
    rwa [List.head?_drop, ← next_iff]
  rcases List.mem_append.mp hothers with hjs | htyped
  · split_ifs at hjs
    · rcases List.mem_pair.mp hjs with rfl | rfl
      · exact binding_oneSlot hi
      · exact method_oneSlot hi
    · cases hjs
  · split_ifs at htyped
    · obtain rfl := List.mem_singleton.mp htyped
      exact typed_oneSlot hi
    · cases htyped

/-- The search for one name finds those matches that have this name. -/
theorem foundIn_word {text ext : List Char} (hlang : langOf ext = some lang) (hone : OneReading text lang)
    (hname : Identifier name) : foundIn text lang (.word name) =
      (foundIn text lang anyName).filter fun x => Slotted.text text x.2 = name := by
  rw [foundIn, foundIn, List.filter_flatMap]
  refine List.flatMap_congr fun d hd => ?_
  have hall : d.2.matchAll text (.word name) =
      (d.2.matchAll text anyName).filter fun m => decide (Slotted.text text m = name) := by
    refine @Slotted.matchAll_filter _ _ _ _ _ (fun s => decide (s = name)) (fun i hi => oneSlot hlang hone hd hi)
      (mem_ends_word hname) ?_
    intro i m j m' hj hm hm' hij hstop
    rw [hone.apart d hd j hj i hij m hm m' hm' hstop]
  rw [hall, List.filter_map]
  rfl

/-! ### The maps -/

variable {text ext n : List Char} {start : ℕ} {out out' o : Starts} {symbol : Option (List Char)} {x : Bool × Found}

theorem lookup_addStart_self : (addStart name start out).lookup name =
    some (((out.lookup name).map (addLine start)).getD [start]) := by
  induction out with
  | nil => exact List.lookup_cons_self
  | cons x out ih =>
    obtain ⟨n, l⟩ := x
    rw [addStart]
    by_cases hn : n = name
    · subst hn
      rw [if_pos rfl, List.lookup_cons_self, List.lookup_cons_self]
      rfl
    · have hbeq : (name == n) = false := beq_eq_false_iff_ne.mpr (Ne.symm hn)
      rw [if_neg hn, List.lookup_cons, List.lookup_cons, hbeq]
      exact ih

theorem lookup_addStart_ne (h : n ≠ name) : (addStart n start out).lookup name = out.lookup name := by
  have hbeq : (name == n) = false := beq_eq_false_iff_ne.mpr h.symm
  induction out with
  | nil =>
    show List.lookup name [(n, [start])] = none
    rw [List.lookup_cons, hbeq]
    rfl
  | cons x out ih =>
    obtain ⟨n', l⟩ := x
    rw [addStart]
    by_cases hn : n' = n
    · subst hn
      rw [if_pos rfl, List.lookup_cons, List.lookup_cons, hbeq]
    · rw [if_neg hn, List.lookup_cons, List.lookup_cons, ih]

theorem keys_addStart : (addStart n start out).map Prod.fst =
    if n ∈ out.map Prod.fst then out.map Prod.fst else out.map Prod.fst ++ [n] := by
  induction out with
  | nil => rfl
  | cons x out ih =>
    obtain ⟨n', l⟩ := x
    rw [addStart, List.map_cons]
    by_cases hn : n' = n
    · subst hn
      rw [if_pos rfl, if_pos List.mem_cons_self]
      rfl
    · rw [if_neg hn, List.map_cons, ih]
      by_cases hmem : n ∈ out.map Prod.fst
      · rw [if_pos hmem, if_pos (List.mem_cons_of_mem _ hmem)]
      · rw [if_neg hmem, if_neg (by rw [List.mem_cons, not_or]; exact ⟨Ne.symm hn, hmem⟩)]
        rfl

theorem nodup_keys_addStart (h : (out.map Prod.fst).Nodup) : ((addStart n start out).map Prod.fst).Nodup := by
  rw [keys_addStart]
  split_ifs with hn
  · exact h
  · rw [List.nodup_append]
    refine ⟨h, List.nodup_singleton n, fun a ha b hb => ?_⟩
    rw [List.mem_singleton.mp hb]
    rintro rfl
    exact hn ha

theorem readMatch_nodup (h : readMatch text symbol out x = some out') (hout : (out.map Prod.fst).Nodup) :
    (out'.map Prod.fst).Nodup := by
  obtain ⟨start, -, rfl⟩ := Option.map_eq_some_iff.mp h
  dsimp only
  split_ifs
  · exact hout
  · cases start with
    | none => exact hout
    | some start => exact nodup_keys_addStart hout

theorem foldlM_nodup {l : List (Bool × Found)} (h : l.foldlM (readMatch text symbol) out = some out')
    (hout : (out.map Prod.fst).Nodup) : (out'.map Prod.fst).Nodup := by
  induction l generalizing out with
  | nil =>
    obtain rfl := Option.some.inj h
    exact hout
  | cons x l ih =>
    rw [List.foldlM_cons] at h
    obtain ⟨next, hnext, hrest⟩ := Option.bind_eq_some_iff.mp h
    exact ih hrest (readMatch_nodup hnext hout)

/-- A match with another name says nothing of this one. -/
theorem readMatch_ne (h : readMatch text none out x = some out') (hx : Slotted.text text x.2 ≠ name) :
    out'.lookup name = out.lookup name := by
  obtain ⟨start, -, rfl⟩ := Option.map_eq_some_iff.mp h
  dsimp only
  split_ifs
  · rfl
  · cases start with
    | none => rfl
    | some start => exact lookup_addStart_ne hx

/-- A match with this name says the same to both readers. -/
theorem readMatch_self (h : readMatch text none out x = some out') (hx : Slotted.text text x.2 = name)
    (hname : name ∉ notAName) (hsame : out.lookup name = o.lookup name) :
    ∃ o', readMatch text (some name) o x = some o' ∧ out'.lookup name = o'.lookup name := by
  obtain ⟨start, hstart, rfl⟩ := Option.map_eq_some_iff.mp h
  refine ⟨start.elim o (addStart name · o), ?_, ?_⟩
  · rw [readMatch, hstart]
    rfl
  · rw [Option.getD_none, hx, if_neg fun hand => hname hand.2]
    cases start with
    | none => exact hsame
    | some start =>
      show (addStart name start out).lookup name = (addStart name start o).lookup name
      rw [lookup_addStart_self, lookup_addStart_self, hsame]

/-- Over all matches the reader of all names and the reader of one keep the same lines for it. -/
theorem foldlM_filter {l : List (Bool × Found)} (h : l.foldlM (readMatch text none) out = some out')
    (hname : name ∉ notAName) (hsame : out.lookup name = o.lookup name) :
    ∃ o', (l.filter fun x => Slotted.text text x.2 = name).foldlM (readMatch text (some name)) o = some o' ∧
      out'.lookup name = o'.lookup name := by
  induction l generalizing out o with
  | nil =>
    obtain rfl := Option.some.inj h
    exact ⟨o, rfl, hsame⟩
  | cons x l ih =>
    rw [List.foldlM_cons] at h
    obtain ⟨next, hnext, hrest⟩ := Option.bind_eq_some_iff.mp h
    by_cases hx : Slotted.text text x.2 = name
    · obtain ⟨o₁, ho₁, hsame₁⟩ := readMatch_self hnext hx hname hsame
      obtain ⟨o', ho', hsame'⟩ := ih hrest hsame₁
      refine ⟨o', ?_, hsame'⟩
      rw [List.filter_cons_of_pos (by simpa using hx), List.foldlM_cons, ho₁]
      exact ho'
    · obtain ⟨o', ho', hsame'⟩ := ih hrest ((readMatch_ne hnext hx).trans hsame)
      refine ⟨o', ?_, hsame'⟩
      rwa [List.filter_cons_of_neg (by simpa using hx)]

/-! ### The two readers -/

/-- What the map has for the name is what the reader of the name alone returns; where it has nothing, that one finds
nothing or has no reading. -/
def SameReading (toLowerCase : List Char → List Char) (text ext name : List Char)
    (all : List (List Char × List (List Char))) : Prop :=
  (∀ sigs, all.lookup name = some sigs → extractSignatures toLowerCase text name ext = some sigs) ∧
    (all.lookup name = none →
      extractSignatures toLowerCase text name ext = none ∨ extractSignatures toLowerCase text name ext = some [])

theorem sameReading_of_oneReading (toLowerCase : List Char → List Char) (text ext : List Char)
    (all : List (List Char × List (List Char))) (h : allSignatures toLowerCase text ext = some all)
    (hone : ∀ lang, langOf (toLowerCase ext) = some lang → OneReading text lang) :
    ∀ name, Identifier name → name ∉ notAName → SameReading toLowerCase text ext name all := by
  intro name hname hnot
  obtain ⟨lang, hlang, h⟩ := Option.bind_eq_some_iff.mp h
  obtain ⟨starts, hstarts, rfl⟩ := Option.map_eq_some_iff.mp h
  have hstarts' : (foundIn text lang anyName).foldlM (readMatch text none) [] = some starts := hstarts
  -- the readings of one name are those of all, as far as they are of this name
  obtain ⟨o, ho, hsame⟩ := foldlM_filter (o := []) hstarts' hnot rfl
  have hnodup : (starts.map Prod.fst).Nodup := foldlM_nodup hstarts List.nodup_nil
  have hsorted : ((sortByKey firstStart starts).map Prod.fst).Nodup :=
    ((sortByKey_perm firstStart starts).map Prod.fst).nodup_iff.mpr hnodup
  have hentry : ((sortByKey firstStart starts).filterMap fun x => (signaturesOf text lang x.2).map (x.1, ·)).lookup name =
      (o.lookup name).bind (signaturesOf text lang) := by
    rw [lookup_filterMap _ hsorted, lookup_perm (sortByKey_perm firstStart starts) hsorted, hsame]
  have hne : name ≠ [] := by
    rintro rfl
    cases hname.1
  have hextract : extractSignatures toLowerCase text name ext = headersAt text ((o.lookup name).getD []) lang := by
    rw [extractSignatures, hlang, Option.bind_some, if_neg hne, definitionStarts, Option.elim_some,
      foundIn_word hlang (hone lang hlang) hname, ho, Option.bind_some]
  rw [SameReading, hentry, hextract]
  cases hlookup : o.lookup name with
  | none => exact ⟨fun sigs hsigs => (nomatch hsigs), fun _ => .inr rfl⟩
  | some lines =>
    rw [Option.bind_some, Option.getD_some, signaturesOf]
    constructor
    · exact fun sigs hsigs => (Option.filter_eq_some_iff.mp hsigs).1
    · intro hnone
      cases hheaders : headersAt text lines lang with
      | none => exact .inl rfl
      | some sigs =>
        rw [hheaders, Option.filter_eq_none_iff] at hnone
        have hnil := hnone sigs rfl
        simp only [ne_eq, decide_not, Bool.not_eq_true, Bool.not_eq_false', decide_eq_true_eq] at hnil
        exact .inr (by rw [hnil])

theorem sameReading_two : SameReading id "fn a() ;\nfn b(x: u8) ;".toList ".rs".toList "b".toList
    [("a".toList, ["fna()".toList]), ("b".toList, ["fnb(x:u8)".toList])] := by
  have hall : allSignatures id "fn a() ;\nfn b(x: u8) ;".toList ".rs".toList =
      some [("a".toList, ["fna()".toList]), ("b".toList, ["fnb(x:u8)".toList])] := by decide +kernel
  refine sameReading_of_oneReading id _ _ _ hall ?_ "b".toList ⟨rfl, rfl⟩ (by decide)
  intro lang hlang
  obtain rfl : { keyword := keyword "fn", ends := ['{', ';'] } = lang := Option.some.inj hlang
  constructor
  · intro keyword hkeyword
    obtain rfl := Option.some.inj hkeyword
    decide +kernel
  · intro d hd j hj i hij m hm m' hm' hstop
    obtain rfl := List.mem_singleton.mp hd
    let find := (keywordPattern { keyword := keyword "fn", ends := ['{', ';'] } (.word "fn".toList)).matchAt
      "fn a() ;\nfn b(x: u8) ;".toList anyName
    have hnone : ∀ j ≤ "fn a() ;\nfn b(x: u8) ;".toList.length, ∀ i < j,
        ((find i).all fun m => m.stop ≤ j ∨ find j = none) = true := by decide +kernel
    have hbehind := hnone j hj i hij
    rw [show find i = some m from hm, show find j = some m' from hm'] at hbehind
    exact absurd (of_decide_eq_true hbehind) (not_or.mpr ⟨Nat.not_le.mpr hstop, (nomatch ·)⟩)

/-- The header of `foo$bar` is one of `foo` too for the reader of `foo`. -/
theorem not_sameReading : ∃ all, allSignatures id "function foo$bar() ;".toList ".js".toList = some all ∧
    Identifier "foo".toList ∧ "foo".toList ∉ notAName ∧
      ¬SameReading id "function foo$bar() ;".toList ".js".toList "foo".toList all := by
  refine ⟨[("foo$bar".toList, ["functionfoo$bar()".toList])], by decide +kernel, ⟨rfl, rfl⟩, by decide, ?_⟩
  rintro ⟨-, hnone⟩
  have hextract : extractSignatures id "function foo$bar() ;".toList "foo".toList ".js".toList =
      some ["functionfoo$bar()".toList] := by decide +kernel
  rw [hextract] at hnone
  exact absurd (hnone (by decide)) (by decide)

end CodeGraph.Plugin.StopImpact
