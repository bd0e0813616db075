import Mathlib.Data.List.DropRight

/-!
# Words of a text, replacement and trimming

A text is a list of characters and `words sep s` are its maximal non-empty runs free of separators.
`words_append_sep` cuts a text at a separator; everything else about words follows from it.

`replace pat rep s` rewrites the occurrences of `pat`, left to right and without overlap. Proofs
never look at its scan: `replace_rewrites` gives an `Rewrites` derivation, which says only that some
occurrences of `pat` became `rep`, and `mem_words_of_rewrites` is proved by induction on it.
-/

namespace CodeGraph.Lib

variable {α : Type*} {sep : α → Bool} {a b s w : List α} {c : α}

/-- The maximal non-empty runs of `s` that hold no separator, in order. -/
def words (sep : α → Bool) (s : List α) : List (List α) :=
  (s.splitOnP sep).filter fun w => !w.isEmpty

@[simp] theorem words_nil : words sep ([] : List α) = [] := by
  simp [words]

/-- A separator cuts a text: its words are those of the two sides. -/
theorem words_append_sep (hc : sep c = true) :
    words sep (a ++ c :: b) = words sep a ++ words sep b := by
  rw [words, List.splitOnP_append_cons _ _ hc, List.filter_append]
  rfl

/-- A leading separator adds no word. -/
theorem words_sep_cons (hc : sep c = true) : words sep (c :: b) = words sep b := by
  have h := words_append_sep (a := []) (b := b) hc
  rwa [words_nil, List.nil_append, List.nil_append] at h

/-- A trailing separator adds no word. -/
theorem words_append_singleton_sep (hc : sep c = true) :
    words sep (a ++ [c]) = words sep a := by
  rw [words_append_sep hc, words_nil, List.append_nil]

/-- A text without separators is its own only word. -/
theorem words_eq_singleton (hw : w ≠ []) (hsep : ∀ c ∈ w, sep c = false) : words sep w = [w] := by
  have h : w.splitOnP sep = [w] := List.splitOnP_eq_singleton fun c hc => by simp [hsep c hc]
  have hne : w.isEmpty = false := by simpa using hw
  rw [words, h]
  simp [hne]

/-- A word is non-empty. -/
theorem ne_nil_of_mem_words (h : w ∈ words sep s) : w ≠ [] := by
  have h' := (List.mem_filter.mp h).2
  simpa using h'

/-- No word holds a separator. -/
theorem sep_eq_false_of_mem_words (h : w ∈ words sep s) (hc : c ∈ w) : sep c = false := by
  have key : ∀ s : List α, ∀ w ∈ s.splitOnP sep, ∀ c ∈ w, sep c = false := by
    intro s
    induction s with
    | nil => simp
    | cons x s ih =>
      rw [List.splitOnP_cons_eq_if_modifyHead]
      obtain ⟨y, ys, hy⟩ := List.exists_cons_of_ne_nil (List.splitOnP_ne_nil sep s)
      rw [hy] at ih ⊢
      split_ifs with hx
      · intro w hw
        rcases List.mem_cons.mp hw with rfl | hw
        · simp
        · exact ih w hw
      · intro w hw c hc
        rw [List.modifyHead_cons] at hw
        rcases List.mem_cons.mp hw with rfl | hw
        · rcases List.mem_cons.mp hc with rfl | hc
          · simpa using hx
          · exact ih y List.mem_cons_self c hc
        · exact ih w (List.mem_cons_of_mem y hw) c hc
  exact key s w (List.mem_filter.mp h).1 c hc

/-- Without separators a text is one word or none. -/
theorem words_of_free (hsep : ∀ c ∈ w, sep c = false) : words sep w = [w].filter fun w => !w.isEmpty := by
  by_cases hw : w = []
  · rw [hw]
    rfl
  · rw [words_eq_singleton hw hsep, List.filter_cons_of_pos (by simpa using hw)]
    rfl

/-- Where every separator is kept, the words of what is kept are what is left of the words. -/
theorem words_filter {keep : α → Bool} (hkeep : ∀ c, sep c = true → keep c = true) (s : List α) :
    words sep (s.filter keep) = ((words sep s).map (List.filter keep)).filter fun w => !w.isEmpty := by
  have hfree : ∀ w : List α, (∀ c ∈ w, sep c = false) →
      words sep (w.filter keep) = ((words sep w).map (List.filter keep)).filter fun w => !w.isEmpty := by
    intro w hw
    rw [words_of_free hw, words_of_free fun c hc => hw c (List.mem_of_mem_filter hc)]
    by_cases hnil : w = []
    · rw [hnil]
      rfl
    · have hword : [w].filter (fun w => !w.isEmpty) = [w] := List.filter_cons_of_pos (by simpa using hnil)
      rw [hword]
      rfl
  -- The open word `w` stands before the rest of the text.
  suffices h : ∀ w : List α, (∀ c ∈ w, sep c = false) →
      words sep ((w ++ s).filter keep) = ((words sep (w ++ s)).map (List.filter keep)).filter fun w => !w.isEmpty from
    h [] fun _ hc => absurd hc List.not_mem_nil
  induction s with
  | nil =>
    intro w hw
    rw [List.append_nil]
    exact hfree w hw
  | cons c s ih =>
    intro w hw
    by_cases hc : sep c = true
    · have hrest := ih [] fun _ hc => absurd hc List.not_mem_nil
      rw [List.nil_append] at hrest
      rw [List.filter_append, List.filter_cons_of_pos (hkeep c hc), words_append_sep hc, words_append_sep hc,
        List.map_append, List.filter_append, hfree w hw, hrest]
    · rw [List.append_cons]
      refine ih (w ++ [c]) fun d hd => ?_
      rcases List.mem_append.mp hd with hd | hd
      · exact hw d hd
      · rw [List.mem_singleton.mp hd]
        exact Bool.eq_false_iff.mpr hc

/-- A word stands in the text. -/
theorem isInfix_of_mem_words (h : w ∈ words sep s) : w <:+: s := by
  have hfree : ∀ v : List α, (∀ c ∈ v, sep c = false) → ∀ w ∈ words sep v, w <:+: v := by
    intro v hv w hw
    rw [words_of_free hv] at hw
    obtain rfl := List.mem_singleton.mp (List.mem_of_mem_filter hw)
    exact List.infix_rfl
  suffices hopen : ∀ v : List α, (∀ c ∈ v, sep c = false) → ∀ w ∈ words sep (v ++ s), w <:+: v ++ s from
    hopen [] (fun _ hc => absurd hc List.not_mem_nil) w h
  clear h
  induction s with
  | nil =>
    intro v hv
    rw [List.append_nil]
    exact hfree v hv
  | cons c s ih =>
    intro v hv w hw
    by_cases hc : sep c = true
    · rw [words_append_sep hc] at hw
      rcases List.mem_append.mp hw with hw | hw
      · exact (hfree v hv w hw).trans (List.prefix_append v _).isInfix
      · have hin := ih [] (fun _ hc => absurd hc List.not_mem_nil) w hw
        exact hin.trans ((List.suffix_cons c s).trans (List.suffix_append v _)).isInfix
    · rw [List.append_cons] at hw ⊢
      refine ih (v ++ [c]) (fun d hd => ?_) w hw
      rcases List.mem_append.mp hd with hd | hd
      · exact hv d hd
      · rw [List.mem_singleton.mp hd]
        exact Bool.eq_false_iff.mpr hc

/-! ### Gathering words -/

section Gather

variable {β : Type*} {f : α → List β}

/-- The words that a scan makes of the texts of the characters. The first argument is the open word. -/
def gather (sep : α → Bool) (f : α → List β) : Option (List β) → List α → List (List β)
  | w, [] => w.toList
  | w, c :: s => if sep c then w.toList ++ gather sep f none s else gather sep f (some (w.getD [] ++ f c)) s

theorem gather_nil (o : Option (List β)) : gather sep f o [] = o.toList := rfl

theorem gather_cons (o : Option (List β)) (c : α) (s : List α) : gather sep f o (c :: s) =
    if sep c then o.toList ++ gather sep f none s else gather sep f (some (o.getD [] ++ f c)) s := rfl

theorem gather_eq (hsep : ∀ c ∈ w, sep c = false) (s : List α) :
    gather sep f (if w = [] then none else some (w.flatMap f)) s = (words sep (w ++ s)).map (List.flatMap f) := by
  -- the induction is on the text; `w` is the word that is open
  induction s generalizing w with
  | nil =>
    rw [List.append_nil, words_of_free hsep]
    by_cases hw : w = []
    · rw [if_pos hw, hw]
      rfl
    · rw [if_neg hw, List.filter_cons_of_pos (by simpa using hw)]
      rfl
  | cons c s ih =>
    rw [gather_cons]
    split_ifs with hc hw hw
    · subst hw
      rw [List.nil_append, words_sep_cons hc]
      exact ih fun _ hc => absurd hc List.not_mem_nil
    · have hrest := @ih [] fun _ hc => absurd hc List.not_mem_nil
      rw [if_pos rfl, List.nil_append] at hrest
      rw [words_append_sep hc, List.map_append, hrest, words_eq_singleton hw hsep]
      rfl
    · subst hw
      have hrest := @ih [c] fun d hd => by
        rw [List.mem_singleton.mp hd]
        exact Bool.eq_false_iff.mpr hc
      rw [if_neg (List.cons_ne_nil c []), List.flatMap_singleton] at hrest
      exact hrest
    · have hrest := @ih (w ++ [c]) fun d hd => by
        rcases List.mem_append.mp hd with hd | hd
        · exact hsep d hd
        · rw [List.mem_singleton.mp hd]
          exact Bool.eq_false_iff.mpr hc
      rw [if_neg (by simp), List.flatMap_append, List.flatMap_singleton] at hrest
      rw [List.append_cons]
      exact hrest

theorem gather_none (s : List α) : gather sep f none s = (words sep s).map (List.flatMap f) :=
  @gather_eq α sep [] β f (fun _ hc => absurd hc List.not_mem_nil) s

theorem gather_congr {sep' : α → Bool} {f' : α → List β} (hsep : ∀ c ∈ s, sep c = sep' c) (hf : ∀ c ∈ s, f c = f' c)
    (o : Option (List β)) : gather sep f o s = gather sep' f' o s := by
  induction s generalizing o with
  | nil => rfl
  | cons c s ih =>
    have hrest := fun d hd => hsep d (List.mem_cons_of_mem c hd)
    have hrest' := fun d hd => hf d (List.mem_cons_of_mem c hd)
    rw [gather_cons, gather_cons, hsep c List.mem_cons_self, hf c List.mem_cons_self, ih hrest hrest', ih hrest hrest']

/-- Leading separators add no word. -/
theorem gather_dropWhile (s : List α) : gather sep f none (s.dropWhile sep) = gather sep f none s := by
  induction s with
  | nil => rfl
  | cons c s ih =>
    by_cases hc : sep c = true
    · rw [List.dropWhile_cons_of_pos hc, ih, gather_cons, if_pos hc]
      rfl
    · rw [List.dropWhile_cons_of_neg hc]

/-- A scan loses the separators only. -/
theorem flatten_gather (o : Option (List β)) (s : List α) :
    (gather sep f o s).flatten = o.getD [] ++ (s.filter fun c => !sep c).flatMap f := by
  induction s generalizing o with
  | nil =>
    rw [gather_nil]
    cases o <;> simp
  | cons c s ih =>
    rw [gather_cons]
    split_ifs with hc
    · rw [List.flatten_append, ih, List.filter_cons_of_neg (by simpa using hc)]
      cases o <;> simp
    · rw [ih, List.filter_cons_of_pos (by simpa using hc), List.flatMap_cons, Option.getD_some, List.append_assoc]

end Gather

/-! ### Replacement -/

section Replace

variable [DecidableEq α] {pat rep : List α}

/-- The scan of `replace`: `skip` characters of an occurrence found earlier are still to be
passed over. -/
def replaceFrom (pat rep : List α) : ℕ → List α → List α
  | _, [] => []
  | skip + 1, _ :: s => replaceFrom pat rep skip s
  | 0, c :: s =>
    if pat.isPrefixOf (c :: s) then rep ++ replaceFrom pat rep (pat.length - 1) s
    else c :: replaceFrom pat rep 0 s

/-- Every occurrence of `pat` in `s` replaced by `rep`, left to right and without overlap; an empty
`pat` replaces nothing. -/
def replace (pat rep s : List α) : List α :=
  if pat = [] then s else replaceFrom pat rep 0 s

/-- The scan of `split`, as that of `replace`: a hit ends the piece. -/
def splitFrom (pat : List α) : ℕ → List α → List (List α)
  | _, [] => [[]]
  | skip + 1, _ :: s => splitFrom pat skip s
  | 0, c :: s =>
    if pat.isPrefixOf (c :: s) then [] :: splitFrom pat (pat.length - 1) s
    else (splitFrom pat 0 s).modifyHead (c :: ·)

/-- The pieces of `s` between the occurrences of `pat`, left to right and without overlap. -/
def split (pat s : List α) : List (List α) := if pat = [] then [s] else splitFrom pat 0 s

theorem splitFrom_ne_nil (k : ℕ) (s : List α) : splitFrom pat k s ≠ [] := by
  induction s generalizing k with
  | nil => exact List.cons_ne_nil _ _
  | cons c s ih =>
    cases k with
    | succ k => exact ih k
    | zero =>
      rw [splitFrom]
      split_ifs with hp
      · exact List.cons_ne_nil _ _
      · intro h
        exact ih 0 (List.modifyHead_eq_nil_iff.mp h)

omit [DecidableEq α] in
theorem intercalate_modifyHead (t : List α) {pieces : List (List α)} (h : pieces ≠ []) :
    rep.intercalate (pieces.modifyHead (t ++ ·)) = t ++ rep.intercalate pieces := by
  match pieces, h with
  | [p], _ => rw [List.modifyHead_cons, List.intercalate_singleton, List.intercalate_singleton]
  | p :: q :: pieces, _ =>
    rw [List.modifyHead_cons, List.intercalate_cons_cons, List.intercalate_cons_cons, List.append_assoc,
      List.append_assoc, List.append_assoc]

/-- To replace is to join the pieces by the replacement. -/
theorem intercalate_splitFrom (k : ℕ) (s : List α) : rep.intercalate (splitFrom pat k s) = replaceFrom pat rep k s := by
  induction s generalizing k with
  | nil => exact List.intercalate_singleton
  | cons c s ih =>
    cases k with
    | succ k => exact ih k
    | zero =>
      rw [splitFrom, replaceFrom]
      split_ifs with hp
      · obtain ⟨p, pieces, hpieces⟩ := List.exists_cons_of_ne_nil (splitFrom_ne_nil (pat.length - 1) s)
        rw [← ih, hpieces, List.intercalate_cons_cons, List.nil_append]
      · rw [← ih]
        exact intercalate_modifyHead [c] (splitFrom_ne_nil 0 s)

theorem intercalate_split (hpat : pat ≠ []) (s : List α) : rep.intercalate (split pat s) = replace pat rep s := by
  rw [split, replace, if_neg hpat, if_neg hpat, intercalate_splitFrom]

omit [DecidableEq α] in
/-- `Rewrites pat rep s s'`: `s'` is `s` with some occurrences of `pat` become `rep`. -/
inductive Rewrites (pat rep : List α) : List α → List α → Prop
  | nil : Rewrites pat rep [] []
  | keep (c : α) {s s' : List α} : Rewrites pat rep s s' → Rewrites pat rep (c :: s) (c :: s')
  | hit {s s' : List α} : Rewrites pat rep s s' → Rewrites pat rep (pat ++ s) (rep ++ s')

omit [DecidableEq α] in
theorem Rewrites.refl : ∀ s : List α, Rewrites pat rep s s
  | [] => .nil
  | c :: s => .keep c (Rewrites.refl s)

/-- Passing over `k` characters is scanning what is left after them. -/
theorem replaceFrom_eq_drop (k : ℕ) (s : List α) :
    replaceFrom pat rep k s = replaceFrom pat rep 0 (s.drop k) := by
  induction s generalizing k with
  | nil => simp [replaceFrom]
  | cons c s ih =>
    cases k with
    | zero => rw [List.drop_zero]
    | succ k => rw [replaceFrom, ih k, List.drop_succ_cons]

theorem replaceFrom_rewrites (hpat : pat ≠ []) (s : List α) :
    Rewrites pat rep s (replaceFrom pat rep 0 s) := by
  -- Strong induction on the length: a hit drops the whole pattern at once.
  induction hn : s.length using Nat.strong_induction_on generalizing s with
  | _ n ih =>
    cases s with
    | nil => exact .nil
    | cons c t =>
      rw [replaceFrom]
      split_ifs with hp
      · obtain ⟨r, hr⟩ := List.isPrefixOf_iff_prefix.mp hp
        have hlen : pat.length + r.length = t.length + 1 := by
          rw [← List.length_append, hr, List.length_cons]
        have hpos : 0 < pat.length := List.length_pos_iff.mpr hpat
        have hdrop : t.drop (pat.length - 1) = r := by
          have h : (c :: t).drop pat.length = r := by rw [← hr, List.drop_left]
          have hsucc : pat.length = pat.length - 1 + 1 := by omega
          rwa [hsucc, List.drop_succ_cons] at h
        rw [replaceFrom_eq_drop, hdrop, ← hr]
        have hlt : r.length < n := by
          rw [List.length_cons] at hn
          omega
        exact .hit (ih r.length hlt r rfl)
      · have hlt : t.length < n := by
          rw [List.length_cons] at hn
          omega
        exact .keep c (ih t.length hlt t rfl)

theorem splitFrom_eq_drop (k : ℕ) (s : List α) : splitFrom pat k s = splitFrom pat 0 (s.drop k) := by
  induction s generalizing k with
  | nil => rw [List.drop_nil, splitFrom, splitFrom]
  | cons c s ih =>
    cases k with
    | zero => rw [List.drop_zero]
    | succ k => rw [splitFrom, ih k, List.drop_succ_cons]

theorem splitFrom_hit (c : α) (s : List α) :
    splitFrom (c :: pat) 0 (c :: pat ++ s) = [] :: splitFrom (c :: pat) 0 s := by
  have hp : (c :: pat).isPrefixOf (c :: (pat ++ s)) = true := List.isPrefixOf_iff_prefix.mpr ⟨s, rfl⟩
  have hlen : (c :: pat).length - 1 = pat.length := rfl
  rw [List.cons_append, splitFrom, if_pos hp, splitFrom_eq_drop, hlen, List.drop_left]

/-- No hit starts in a text without the first character of the pattern. -/
theorem splitFrom_append {c : α} {t : List α} (h : c ∉ t) (s : List α) :
    splitFrom (c :: pat) 0 (t ++ s) = (splitFrom (c :: pat) 0 s).modifyHead (t ++ ·) := by
  induction t with
  | nil =>
    show splitFrom (c :: pat) 0 s = (splitFrom (c :: pat) 0 s).modifyHead id
    rw [List.modifyHead_id, id]
  | cons a t ih =>
    rw [List.mem_cons, not_or] at h
    have hp : ¬(c :: pat).isPrefixOf (a :: (t ++ s)) = true := by
      rw [List.isPrefixOf_iff_prefix, List.cons_prefix_cons]
      exact fun hhead => h.1 hhead.1
    rw [List.cons_append, splitFrom, if_neg hp, ih h.2, List.modifyHead_modifyHead]
    rfl

/-- Joining and splitting, where no piece has the first character of the pattern. -/
theorem split_intercalate {c : α} {pieces : List (List α)} (hne : pieces ≠ []) (h : ∀ p ∈ pieces, c ∉ p) :
    split (c :: pat) ((c :: pat).intercalate pieces) = pieces := by
  rw [split, if_neg (List.cons_ne_nil c pat)]
  induction pieces with
  | nil => exact absurd rfl hne
  | cons p pieces ih =>
    have hp := h p List.mem_cons_self
    cases pieces with
    | nil =>
      have hsplit := @splitFrom_append α _ pat c p hp []
      rw [List.append_nil] at hsplit
      rw [List.intercalate_singleton, hsplit, splitFrom, List.modifyHead_cons, List.append_nil]
    | cons q pieces =>
      rw [List.intercalate_cons_cons, List.append_assoc, splitFrom_append hp, splitFrom_hit,
        ih (List.cons_ne_nil q pieces) fun r hr => h r (List.mem_cons_of_mem p hr), List.modifyHead_cons,
        List.append_nil]

/-- Replacing is a rewriting of occurrences. -/
theorem replace_rewrites (pat rep s : List α) : Rewrites pat rep s (replace pat rep s) := by
  rw [replace]
  split_ifs with h
  · exact Rewrites.refl s
  · exact replaceFrom_rewrites h s

omit [DecidableEq α] in
/-- Rewriting separator-delimited occurrences of the word `u` to one separator keeps every other
word. The prefix `a` is what was already scanned and kept. -/
theorem mem_words_of_rewrites {u s' : List α} (hc : sep c = true) (hu : u ≠ [])
    (husep : ∀ x ∈ u, sep x = false) (hne : w ≠ u)
    (h : Rewrites (c :: (u ++ [c])) [c] s s') (hw : w ∈ words sep (a ++ s)) :
    w ∈ words sep (a ++ s') := by
  induction h generalizing a with
  | nil => exact hw
  | keep x _ ih =>
    rw [List.append_cons] at hw ⊢
    exact ih hw
  | @hit s s' _ ih =>
    have hcut : a ++ ((c :: (u ++ [c])) ++ s) = a ++ c :: (u ++ c :: s) := by simp
    rw [hcut, words_append_sep hc, words_append_sep hc, words_eq_singleton hu husep] at hw
    rw [List.singleton_append, words_append_sep hc, List.mem_append]
    rcases List.mem_append.mp hw with hwa | hw'
    · exact .inl hwa
    · rcases List.mem_append.mp hw' with hwu | hws
      · exact absurd (List.mem_singleton.mp hwu) hne
      · exact .inr (ih (a := []) hws)

omit [DecidableEq α] in
/-- Rewriting separator-delimited occurrences of a word to one separator makes no new word. -/
theorem mem_words_of_mem_rewrites {u s' : List α} (hc : sep c = true)
    (h : Rewrites (c :: (u ++ [c])) [c] s s') (hw : w ∈ words sep (a ++ s')) :
    w ∈ words sep (a ++ s) := by
  induction h generalizing a with
  | nil => exact hw
  | keep x _ ih =>
    rw [List.append_cons] at hw ⊢
    exact ih hw
  | @hit s s' _ ih =>
    have hcut : a ++ ((c :: (u ++ [c])) ++ s) = a ++ c :: (u ++ c :: s) := by simp
    rw [List.singleton_append, words_append_sep hc, List.mem_append] at hw
    rw [hcut, words_append_sep hc, words_append_sep hc, List.mem_append, List.mem_append]
    rcases hw with hwa | hws
    · exact .inl hwa
    · exact .inr (.inr (ih (a := []) hws))

end Replace

/-! ### Trimming -/

/-- `s` without the characters satisfying `p` at its two ends. -/
def trim (p : α → Bool) (s : List α) : List α :=
  (s.dropWhile p).rdropWhile p

theorem trim_eq_nil_iff {p : α → Bool} {s : List α} : trim p s = [] ↔ ∀ c ∈ s, p c = true := by
  rw [trim, List.rdropWhile_eq_nil_iff]
  constructor
  · intro h
    have hnil : s.dropWhile p = [] := by
      by_contra hne
      have hhead := List.head_dropWhile_not p hne
      rw [h _ (List.head_mem hne)] at hhead
      cases hhead
    exact List.dropWhile_eq_nil_iff.mp hnil
  · exact fun h c hc => h c ((List.dropWhile_sublist p).subset hc)

/-- Trimming separators keeps the words. -/
theorem words_trim {p : α → Bool} (hp : ∀ c, p c = true → sep c = true) (s : List α) :
    words sep (trim p s) = words sep s := by
  have hleft : ∀ s : List α, words sep (s.dropWhile p) = words sep s := by
    intro s
    induction s with
    | nil => rfl
    | cons c s ih =>
      by_cases hc : p c = true
      · rw [List.dropWhile_cons_of_pos hc, ih, words_sep_cons (hp c hc)]
      · rw [List.dropWhile_cons_of_neg hc]
  have hright : ∀ s : List α, words sep (s.rdropWhile p) = words sep s := by
    intro s
    induction s using List.reverseRecOn with
    | nil => rfl
    | append_singleton s c ih =>
      by_cases hc : p c = true
      · rw [List.rdropWhile_concat_pos p s c hc, ih, words_append_singleton_sep (hp c hc)]
      · rw [List.rdropWhile_concat_neg p s c hc]
  rw [trim, hright, hleft]

theorem trim_concat {p : α → Bool} (h : p c = true) (s : List α) : trim p (s ++ [c]) = trim p s := by
  rw [trim, trim, List.dropWhile_append]
  split_ifs with hempty
  · rw [List.dropWhile_cons_of_pos h, List.isEmpty_iff.mp hempty]
    rfl
  · rw [List.rdropWhile_concat_pos p _ c h]

/-- A text that begins and ends with characters that are not trimmed. -/
structure Solid (p : α → Bool) (s : List α) : Prop where
  first : ∃ c rest, s = c :: rest ∧ p c = false
  last : ∃ front c, s = front ++ [c] ∧ p c = false

theorem Solid.append {p : α → Bool} {a b : List α} (ha : Solid p a) (hb : Solid p b) (s : List α) :
    Solid p (a ++ (s ++ b)) := by
  obtain ⟨c, rest, rfl, hc⟩ := ha.first
  obtain ⟨front, d, rfl, hd⟩ := hb.last
  exact ⟨⟨c, rest ++ (s ++ (front ++ [d])), rfl, hc⟩, ⟨c :: rest ++ (s ++ front), d, by simp, hd⟩⟩

theorem Solid.between {p : α → Bool} {a l r : List α} (ha : Solid p a) (hl : ∀ c ∈ l, p c = false)
    (hr : ∀ c ∈ r, p c = false) : Solid p (l ++ (a ++ r)) := by
  obtain ⟨c, rest, rfl, hc⟩ := ha.first
  obtain ⟨front, d, hfront, hd⟩ := ha.last
  constructor
  · cases l with
    | nil => exact ⟨c, rest ++ r, rfl, hc⟩
    | cons b l => exact ⟨b, l ++ (c :: rest ++ r), rfl, hl b List.mem_cons_self⟩
  · induction r using List.reverseRecOn with
    | nil => exact ⟨l ++ front, d, by rw [List.append_nil, hfront, List.append_assoc], hd⟩
    | append_singleton r b _ =>
      exact ⟨l ++ (c :: rest ++ r), b, by simp, hr b (List.mem_append_right r List.mem_cons_self)⟩

theorem trim_append {p : α → Bool} {g a : List α} (hg : ∀ c ∈ g, p c = true) (ha : Solid p a) (b : List α) :
    trim p (g ++ (a ++ b)) = a ++ b.rdropWhile p := by
  have hleft : (g ++ (a ++ b)).dropWhile p = a ++ b := by
    obtain ⟨c, rest, rfl, hc⟩ := ha.first
    rw [List.dropWhile_append_of_pos hg, List.cons_append, List.dropWhile_cons_of_neg (by rw [hc]; decide)]
  have hright : ∀ b : List α, (a ++ b).rdropWhile p = a ++ b.rdropWhile p := by
    intro b
    obtain ⟨front, c, rfl, hc⟩ := ha.last
    induction b using List.reverseRecOn with
    | nil =>
      rw [List.append_nil, List.rdropWhile_concat_neg p front c (by rw [hc]; decide), List.rdropWhile_nil,
        List.append_nil]
    | append_singleton b d ih =>
      rw [← List.append_assoc]
      by_cases hd : p d = true
      · rw [List.rdropWhile_concat_pos p _ d hd, List.rdropWhile_concat_pos p b d hd, ih]
      · rw [List.rdropWhile_concat_neg p _ d hd, List.rdropWhile_concat_neg p b d hd, List.append_assoc]
  rw [trim, hleft, hright]

end CodeGraph.Lib
