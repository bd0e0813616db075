import CodeGraph.Lib.Texts
import CodeGraph.Pipeline.RustShapes

/-!
# Parameters and nested functions

The loop of `rust_signature_param_count` has one depth for four kinds of brackets. Text in which they are balanced
leaves the depth as it was (`countLoop_written`), so the commas that count are those between the parameters
(`rustSignatureParamCount_params`).

`rust_fn_shapes_of_file` is the sweep of `Lib/Sweep` over the rows of one owner (`nestedIds_iff`): a row is nested just
when another row of its owner contains it (`rustFnShapesOfFile_nested`).
-/

namespace CodeGraph.Pipeline.RustShapes

open CodeGraph.Lib
open CodeGraph.Pipeline.InFlight (isWhitespace)
open CodeGraph.Pipeline.CargoNames (trimStart)

/-! ### Parameter lists -/

def pairs : List (Char × Char) := [('(', ')'), ('[', ']'), ('{', '}'), ('<', '>')]

def brackets : List Char := ['(', '[', '{', '<', ')', ']', '}', '>']

/-- Text with its brackets balanced. Where `top` holds the text is outside all brackets. A `>` that stands right behind
`-` is part of an arrow, and closes nothing. -/
inductive Written : Bool → List Char → Prop
  | nil {top : Bool} : Written top []
  | plain {top : Bool} {c : Char} {s : List Char} : c ∉ brackets → (top = true → c ∉ [',', '#', '.']) →
      Written top s → Written top (c :: s)
  | arrow {top : Bool} {s : List Char} : Written top s → Written top ('-' :: '>' :: s)
  | bracketed {top : Bool} {o e : Char} {body s : List Char} : (o, e) ∈ pairs → Written false body →
      (e = '>' → body.getLast? ≠ some '-') → Written top s → Written top (o :: (body ++ e :: s))

/-- A parameter, with the blanks around it. -/
structure Parameter where
  text : List Char
  written : Written true text
  solid : ∃ c ∈ text, isWhitespace c = false

def Blank (s : List Char) : Prop := ∀ c ∈ s, isWhitespace c = true

/-- What may stand between the last parameter and the end of the list. -/
def Tail (params : List Parameter) (tail : List Char) : Prop :=
  Blank tail ∨ params ≠ [] ∧ ∃ blanks, tail = ',' :: blanks ∧ Blank blanks

def paramList (params : List Parameter) (tail : List Char) : List Char :=
  '(' :: ([','].intercalate (params.map Parameter.text) ++ (tail ++ [')']))

variable {st : Count} {c : Char} {s rest : List Char} {top : Bool} {d : ℕ}

namespace Count

@[simp] theorem after_depth : (st.after c).depth = st.depth := rfl

@[simp] theorem after_commas : (st.after c).commas = st.commas := rfl

@[simp] theorem after_prev : (st.after c).prev = c := rfl

theorem foldl_after_depth : (s.foldl after st).depth = st.depth := by
  induction s generalizing st with
  | nil => rfl
  | cons c s ih => rw [List.foldl_cons, ih, after_depth]

theorem foldl_after_commas : (s.foldl after st).commas = st.commas := by
  induction s generalizing st with
  | nil => rfl
  | cons c s ih => rw [List.foldl_cons, ih, after_commas]

theorem foldl_after_prev : (s.foldl after st).prev = s.getLast?.getD st.prev := by
  induction s using List.reverseRecOn with
  | nil => rfl
  | append_singleton s c _ => rw [List.foldl_append, List.getLast?_concat]; rfl

/-- What the loop remembers of a text does not depend on the depth. -/
theorem foldl_after_with : s.foldl after { st with depth := d } = { s.foldl after st with depth := d } := by
  induction s generalizing st with
  | nil => rfl
  | cons c s ih => exact @ih (st.after c)

theorem foldl_after_blank (h : Blank s) : (s.foldl after st).lastNonSpace = st.lastNonSpace := by
  induction s generalizing st with
  | nil => rfl
  | cons c s ih =>
    rw [List.foldl_cons, ih fun d hd => h d (List.mem_cons_of_mem c hd), after, if_pos (h c List.mem_cons_self)]

end Count

theorem isWhitespace_eq_false (h : c ∈ [',', '(', ')', ']', '}', '>', '-', '#', '.', '[', '{', '<']) :
    isWhitespace c = false := by
  revert c
  have hall : [',', '(', ')', ']', '}', '>', '-', '#', '.', '[', '{', '<'].all (fun c => !isWhitespace c) = true := by
    decide
  intro c hc
  simpa using List.all_eq_true.mp hall c hc

/-! ### One character -/

theorem countLoop_plain (hc : c ∉ brackets) (h : st.depth = 0 → c ∉ [',', '#', '.']) :
    countLoop st (c :: rest) = countLoop (st.after c) rest := by
  have hbrackets : ∀ d ∈ brackets, c ≠ d := fun d hd heq => hc (heq ▸ hd)
  simp only [brackets, List.forall_mem_cons] at hbrackets
  rw [countLoop, if_neg (by simp [hbrackets]), if_neg (by simp [hbrackets]), if_neg (by simp [hbrackets]),
    if_neg hbrackets.2.2.2.2.1]
  simp only [List.mem_cons, List.not_mem_nil, or_false, not_or] at h
  rw [if_neg fun hcomma => (h hcomma.2).1 hcomma.1, if_neg]
  rintro ⟨hmem, hzero⟩
  simp only [List.mem_cons, List.not_mem_nil, or_false] at hmem
  exact hmem.elim (h hzero).2.1 (h hzero).2.2

theorem countLoop_arrow (hprev : st.prev = '-') :
    countLoop st ('>' :: rest) = countLoop (st.after '>') rest := by
  rw [countLoop, if_neg (by decide), if_pos ⟨rfl, hprev⟩]

theorem countLoop_open {o e : Char} (h : (o, e) ∈ pairs) :
    countLoop st (o :: rest) = countLoop ({ st with depth := st.depth + 1 }.after o) rest := by
  have hopener : o ∈ ['(', '[', '{', '<'] := List.mem_map_of_mem (f := Prod.fst) h
  rw [countLoop, if_pos hopener]

theorem closer_of_mem_pairs {o e : Char} (h : (o, e) ∈ pairs) :
    e ∈ [')', ']', '}', '>'] ∧ e ∉ ['(', '[', '{', '<'] ∧ o ≠ '-' := by
  simp only [pairs, List.mem_cons, List.not_mem_nil, or_false, Prod.mk.injEq] at h
  rcases h with ⟨rfl, rfl⟩ | ⟨rfl, rfl⟩ | ⟨rfl, rfl⟩ | ⟨rfl, rfl⟩ <;> decide

theorem countLoop_close {o e : Char} (h : (o, e) ∈ pairs) (hdepth : st.depth = d + 1)
    (harrow : e = '>' → st.prev ≠ '-') :
    countLoop st (e :: rest) = countLoop ({ st with depth := d }.after e) rest := by
  obtain ⟨hcloser, hopener, -⟩ := closer_of_mem_pairs h
  have hsub : checkedSub st.depth 1 = some d := by
    rw [hdepth, checkedSub, if_pos (by omega), Nat.add_sub_cancel]
  rw [countLoop, if_neg hopener, if_neg fun h => harrow h.1 h.2, if_pos ⟨hcloser, by omega⟩, hsub]

/-! ### Balanced text -/

/-- Balanced text changes nothing but what the loop remembers of the last characters. -/
theorem countLoop_written (h : Written top s) (hdepth : st.depth = 0 → top = true) :
    countLoop st (s ++ rest) = countLoop (s.foldl Count.after st) rest := by
  induction h generalizing st rest with
  | nil => rfl
  | plain hc htop _ ih =>
    rw [List.cons_append, countLoop_plain hc fun hzero => htop (hdepth hzero)]
    exact ih hdepth
  | arrow _ ih =>
    rw [List.cons_append, List.cons_append, countLoop_plain (by decide) fun _ => by decide, countLoop_arrow rfl]
    exact ih hdepth
  | @bracketed top o e body s hpair _ harrow _ ihbody ih =>
    have hsplit : o :: (body ++ e :: s) ++ rest = o :: (body ++ (e :: (s ++ rest))) := by simp
    have hinner : ((body.foldl Count.after ({ st with depth := st.depth + 1 }.after o))).depth = st.depth + 1 :=
      Count.foldl_after_depth
    have hprev : e = '>' → (body.foldl Count.after ({ st with depth := st.depth + 1 }.after o)).prev ≠ '-' := by
      intro he
      rw [Count.foldl_after_prev]
      cases hlast : body.getLast? with
      | none => exact (closer_of_mem_pairs hpair).2.2
      | some b => exact fun hb => harrow he (hlast.trans (congrArg some hb))
    have hclosed : { body.foldl Count.after ({ st with depth := st.depth + 1 }.after o) with depth := st.depth } =
        body.foldl Count.after (st.after o) :=
      Count.foldl_after_with.symm
    rw [hsplit, countLoop_open hpair, ihbody fun hzero => absurd hzero (Nat.succ_ne_zero _),
      countLoop_close hpair hinner hprev, hclosed]
    rw [ih fun hzero => hdepth (by rwa [Count.after_depth, Count.foldl_after_depth, Count.after_depth] at hzero), List.foldl_cons, List.foldl_append, List.foldl_cons]

theorem Written.run (hs : ∀ c ∈ s, c ∉ brackets ∧ c ∉ [',', '#', '.']) {t : List Char} (h : Written top t) :
    Written top (s ++ t) := by
  induction s with
  | nil => exact h
  | cons c s ih =>
    have hc := hs c List.mem_cons_self
    exact .plain hc.1 (fun _ => hc.2) (ih fun d hd => hs d (List.mem_cons_of_mem c hd))

theorem written_of_blank (h : Blank s) : Written true s := by
  rw [← List.append_nil s]
  refine Written.run (fun c hc => ?_) .nil
  have hne : ∀ l : List Char, (∀ d ∈ l, isWhitespace d = false) → c ∉ l := fun l hl hmem =>
    Bool.false_ne_true ((hl c hmem).symm.trans (h c hc))
  refine ⟨hne _ fun d hd => isWhitespace_eq_false ?_, hne _ fun d hd => isWhitespace_eq_false ?_⟩
  · revert hd
    simp only [brackets, List.mem_cons]
    tauto
  · revert hd
    simp only [List.mem_cons]
    tauto

/-- The last solid character of balanced text opens no bracket, and is no comma outside brackets. -/
theorem lastNonSpace_written (h : Written top s) (st : Count) :
    Blank s ∨ (s.foldl Count.after st).lastNonSpace ≠ '(' ∧
      (top = true → (s.foldl Count.after st).lastNonSpace ≠ ',') := by
  -- behind a solid character, blanks keep it the last one
  have hbehind : ∀ {c : Char} {s : List Char} {st : Count} {top : Bool}, isWhitespace c = false → c ≠ '(' →
      (top = true → c ≠ ',') → (Blank s ∨ (s.foldl Count.after (st.after c)).lastNonSpace ≠ '(' ∧
        (top = true → (s.foldl Count.after (st.after c)).lastNonSpace ≠ ',')) →
      (s.foldl Count.after (st.after c)).lastNonSpace ≠ '(' ∧
        (top = true → (s.foldl Count.after (st.after c)).lastNonSpace ≠ ',') := by
    intro c s st top hsolid hparen hcomma hs
    rcases hs with hblank | hlast
    · have hlast : (st.after c).lastNonSpace = c := by rw [Count.after, if_neg (by simp [hsolid])]
      rw [Count.foldl_after_blank hblank, hlast]
      exact ⟨hparen, hcomma⟩
    · exact hlast
  -- the induction is on how the text is written
  induction h generalizing st with
  | nil => exact .inl fun c hc => nomatch hc
  | @plain top c s hc htop _ ih =>
    rw [List.foldl_cons]
    cases hspace : isWhitespace c with
    | true =>
      refine (ih (st.after c)).imp (fun hblank d hd => ?_) id
      rcases List.mem_cons.mp hd with rfl | hd
      · exact hspace
      · exact hblank d hd
    | false =>
      refine .inr (hbehind hspace (fun heq => hc (by simp [heq, brackets])) (fun ht heq => ?_) (ih (st.after c)))
      exact htop ht (by simp [heq])
  | arrow _ ih =>
    rw [List.foldl_cons, List.foldl_cons]
    exact .inr (hbehind (by decide) (by decide) (fun _ => by decide) (ih _))
  | @bracketed top o e body s hpair _ _ _ _ ih =>
    rw [List.foldl_cons, List.foldl_append, List.foldl_cons]
    have hcloser := (closer_of_mem_pairs hpair).1
    simp only [List.mem_cons, List.not_mem_nil, or_false] at hcloser
    refine .inr (hbehind (isWhitespace_eq_false ?_) (fun heq => ?_) (fun _ heq => ?_) (ih _))
    · rcases hcloser with rfl | rfl | rfl | rfl <;> simp
    · subst heq
      revert hcloser
      decide
    · subst heq
      revert hcloser
      decide

/-! ### The list -/

/-- What the loop has counted behind a last parameter. -/
structure Counted (st : Count) (commas : ℕ) : Prop where
  depth : st.depth = 0
  commas : st.commas = commas
  open_ : st.lastNonSpace ≠ '('
  comma : st.lastNonSpace ≠ ','

theorem Parameter.counted (p : Parameter) (hdepth : st.depth = 0) :
    Counted (p.text.foldl Count.after st) st.commas := by
  have hlast := (lastNonSpace_written p.written st).resolve_left fun hblank => by
    obtain ⟨c, hc, hsolid⟩ := p.solid
    exact Bool.false_ne_true (hsolid.symm.trans (hblank c hc))
  exact ⟨Count.foldl_after_depth.trans hdepth, Count.foldl_after_commas, hlast.1, hlast.2 rfl⟩

theorem countLoop_comma (hdepth : st.depth = 0) :
    countLoop st (',' :: rest) = countLoop ({ st with commas := st.commas + 1 }.after ',') rest := by
  rw [countLoop, if_neg (by decide), if_neg (by simp), if_neg (by simp), if_neg (by decide), if_pos ⟨rfl, hdepth⟩]

theorem countLoop_params (p : Parameter) (params : List Parameter) (hdepth : st.depth = 0) :
    ∃ st', Counted st' (st.commas + params.length) ∧
      countLoop st ([','].intercalate ((p :: params).map Parameter.text) ++ rest) = countLoop st' rest := by
  induction params generalizing p st with
  | nil =>
    refine ⟨p.text.foldl Count.after st, p.counted hdepth, ?_⟩
    have hone : [','].intercalate ([p].map Parameter.text) = p.text := by simp [List.intercalate]
    rw [hone]
    exact countLoop_written p.written fun _ => rfl
  | cons q params ih =>
    have hcounted := p.counted hdepth
    have hsplit : [','].intercalate ((p :: q :: params).map Parameter.text) ++ rest =
        p.text ++ (',' :: ([','].intercalate ((q :: params).map Parameter.text) ++ rest)) := by
      simp [List.intercalate]
    obtain ⟨st', hst', heq⟩ :=
      @ih ({ p.text.foldl Count.after st with commas := (p.text.foldl Count.after st).commas + 1 }.after ',') q
        hcounted.depth
    refine ⟨st', ?_, ?_⟩
    · have hcommas : (p.text.foldl Count.after st).commas + 1 + params.length = st.commas + (q :: params).length := by
        rw [hcounted.commas, List.length_cons]
        omega
      exact hcommas ▸ hst'
    · rw [hsplit, countLoop_written p.written fun _ => rfl, countLoop_comma hcounted.depth]
      exact heq

/-- The end of the list, behind some blanks. -/
theorem countLoop_end {blanks behind : List Char} (hblank : Blank blanks) (hdepth : st.depth = 0) :
    countLoop st (blanks ++ ')' :: behind) = some (some st.close) := by
  have hzero : (blanks.foldl Count.after st).depth = 0 := Count.foldl_after_depth.trans hdepth
  rw [countLoop_written (written_of_blank hblank) fun _ => rfl, countLoop, if_neg (by decide), if_neg (by simp),
    if_neg (by rw [hzero]; simp), if_pos rfl, Count.close, Count.close, Count.foldl_after_blank hblank,
    Count.foldl_after_commas]

theorem countLoop_paramList {params : List Parameter} {tail behind : List Char} (htail : Tail params tail) :
    countLoop .start ([','].intercalate (params.map Parameter.text) ++ (tail ++ ')' :: behind)) =
      some (some params.length) := by
  cases params with
  | nil =>
    rcases htail with hblank | ⟨hne, -⟩
    · exact countLoop_end hblank rfl
    · exact absurd rfl hne
  | cons p params =>
    obtain ⟨st, hst, heq⟩ := @countLoop_params .start (tail ++ ')' :: behind) p params rfl
    rw [heq]
    rcases htail with hblank | ⟨-, blanks, rfl, hblank⟩
    · have hclose : st.close = (p :: params).length := by
        rw [Count.close, if_neg hst.open_, if_pos hst.comma, hst.commas]
        exact congrArg (· + 1) (Nat.zero_add _)
      rw [countLoop_end hblank hst.depth, hclose]
    · have hclose : ({ st with commas := st.commas + 1 }.after ',').close = (p :: params).length := by
        have hlast : ({ st with commas := st.commas + 1 }.after ',').lastNonSpace = ',' := rfl
        rw [Count.close, hlast, if_neg (by decide), if_neg (by decide), Count.after_commas]
        show st.commas + 1 = _
        rw [hst.commas]
        exact congrArg (· + 1) (Nat.zero_add _)
      have hdepth : ({ st with commas := st.commas + 1 }.after ',').depth = 0 := hst.depth
      rw [List.cons_append, countLoop_comma hst.depth, countLoop_end hblank hdepth, hclose]

/-- The subtraction is made at positive depths only. -/
theorem countLoop_ne_none (st : Count) (s : List Char) : countLoop st s ≠ none := by
  induction s generalizing st with
  | nil => exact Option.some_ne_none _
  | cons c s ih =>
    rw [countLoop]
    split_ifs with _ _ hclose
    · exact ih _
    · exact ih _
    · have hsub : checkedSub st.depth 1 = some (st.depth - 1) := if_pos hclose.2
      rw [hsub]
      exact ih _
    · exact Option.some_ne_none _
    · exact ih _
    · exact Option.some_ne_none _
    · exact ih _

/-- A parameter list is counted right, whatever comes behind it, where the signature has no comment; and no signature
makes the depth go below zero. -/
theorem rustSignatureParamCount_params :
    (∀ (params : List Parameter) (tail behind : List Char), Tail params tail →
      ¬ ['/', '/'] <:+: paramList params tail ++ behind → ¬ ['/', '*'] <:+: paramList params tail ++ behind →
      rustSignatureParamCount (paramList params tail ++ behind) = some (some params.length)) ∧
    ∀ signature, rustSignatureParamCount signature ≠ none := by
  constructor
  · intro params tail behind htail hline hblock
    have hcomment : hasComment (paramList params tail ++ behind) = false := by
      rw [hasComment, decide_eq_false hline, decide_eq_false hblock]
      rfl
    have htext : paramList params tail ++ behind =
        '(' :: ([','].intercalate (params.map Parameter.text) ++ (tail ++ ')' :: behind)) := by
      simp [paramList]
    have htrim : trimStart (paramList params tail ++ behind) = paramList params tail ++ behind := by
      rw [htext, trimStart, List.dropWhile_cons_of_neg (by decide)]
    rw [rustSignatureParamCount, hcomment, htrim, htext]
    exact countLoop_paramList htail
  · intro signature
    unfold rustSignatureParamCount
    split_ifs
    · exact Option.some_ne_none _
    · split
      · exact countLoop_ne_none _ _
      · exact Option.some_ne_none _

/-- `&self` and ` f: fn(u8, A) -> Vec<u8>`, a trailing comma and a return type. -/
theorem rustSignatureParamCount_params_two :
    rustSignatureParamCount "(&self, f: fn(u8, A) -> Vec<u8>, ) -> R".toList = some (some 2) := by
  have hcomment : ¬ ['/', '/'] <:+: "(&self, f: fn(u8, A) -> Vec<u8>, ) -> R".toList ∧
      ¬ ['/', '*'] <:+: "(&self, f: fn(u8, A) -> Vec<u8>, ) -> R".toList := by
    decide
  have hblank : Blank [' '] := fun c hc => by
    rw [List.mem_singleton.mp hc]
    rfl
  have plain : ∀ {top : Bool} {s t : List Char}, s.all (fun c => c ∉ brackets ∧ c ∉ [',', '#', '.']) = true →
      Written top t → Written top (s ++ t) := fun hs ht =>
    Written.run (fun c hc => of_decide_eq_true (List.all_eq_true.mp hs c hc)) ht
  have hself : Written true ("&self".toList ++ []) := plain (by decide) .nil
  have hnumber : ∀ {top : Bool}, Written top ("u8".toList ++ []) := plain (by decide) .nil
  have hargs : Written false ("u8".toList ++ ',' :: (" A".toList ++ [])) :=
    plain (by decide) (.plain (by decide) (fun h => nomatch h) (plain (by decide) .nil))
  have hvec : Written true ('<' :: ("u8".toList ++ [] ++ '>' :: [])) :=
    .bracketed (by decide) hnumber (fun _ => by decide) .nil
  have hresult : Written true ('-' :: '>' :: (" Vec".toList ++ '<' :: ("u8".toList ++ [] ++ '>' :: []))) :=
    .arrow (plain (by decide) hvec)
  have hfun : Written true (" f: fn".toList ++ '(' :: ("u8".toList ++ ',' :: (" A".toList ++ []) ++ ')' ::
      (" ".toList ++ '-' :: '>' :: (" Vec".toList ++ '<' :: ("u8".toList ++ [] ++ '>' :: []))))) :=
    plain (by decide) (.bracketed (by decide) hargs (fun h => absurd h (by decide))
      (plain (by decide) hresult))
  exact rustSignatureParamCount_params.1 [⟨_, hself, 's', by decide, by decide⟩, ⟨_, hfun, 'f', by decide, by decide⟩]
    [',', ' '] " -> R".toList (.inr ⟨List.cons_ne_nil _ _, [' '], rfl, hblank⟩) hcomment.1 hcomment.2

/-! ### Nested functions -/

variable {rows : List RustFnRow} {row : RustFnRow} {owner key : List Char} {group : List RustFnRow}
  {groups : List (List Char × List RustFnRow)}

/-- Another row of the owner has other lines, and they contain the row's. -/
def Nested (rows : List RustFnRow) (row : RustFnRow) : Prop :=
  row.owner.isSome = true ∧
    ∃ other ∈ rows, other.owner = row.owner ∧ other.lines ≠ row.lines ∧ Within other.lines row.lines

instance (rows : List RustFnRow) (row : RustFnRow) : Decidable (Nested rows row) :=
  inferInstanceAs (Decidable (_ ∧ _))

/-- The groups are the rows of the owners that occur. -/
structure Grouped (rows : List RustFnRow) (groups : List (List Char × List RustFnRow)) : Prop where
  nodup : (groups.map Prod.fst).Nodup
  group : ∀ owner group, (owner, group) ∈ groups → group = rows.filter fun row => row.owner = some owner
  found : ∀ row ∈ rows, ∀ owner, row.owner = some owner → owner ∈ groups.map Prod.fst

theorem keys_pushRow : (pushRow row owner groups).map Prod.fst =
    if owner ∈ groups.map Prod.fst then groups.map Prod.fst else groups.map Prod.fst ++ [owner] := by
  induction groups with
  | nil => rfl
  | cons g groups ih =>
    obtain ⟨key, group⟩ := g
    rw [pushRow]
    by_cases hkey : key = owner
    · rw [if_pos hkey, if_pos (by simp [hkey])]
      rfl
    · rw [if_neg hkey, List.map_cons, ih, List.map_cons]
      by_cases hmem : owner ∈ groups.map Prod.fst
      · rw [if_pos hmem, if_pos (List.mem_cons_of_mem key hmem)]
      · rw [if_neg hmem, if_neg fun h => (List.mem_cons.mp h).elim (fun heq => hkey heq.symm) hmem]
        rfl

/-- A group after a push is one of another owner, or the owner's with the row. -/
theorem mem_pushRow (hn : (groups.map Prod.fst).Nodup) (h : (key, group) ∈ pushRow row owner groups) :
    key ≠ owner ∧ (key, group) ∈ groups ∨
      key = owner ∧ ((∃ before, (owner, before) ∈ groups ∧ group = before ++ [row]) ∨
        owner ∉ groups.map Prod.fst ∧ group = [row]) := by
  induction groups with
  | nil =>
    obtain ⟨rfl, rfl⟩ := Prod.mk.inj (List.mem_singleton.mp h)
    exact .inr ⟨rfl, .inr ⟨List.not_mem_nil, rfl⟩⟩
  | cons g groups ih =>
    obtain ⟨k, before⟩ := g
    rw [List.map_cons, List.nodup_cons] at hn
    rw [pushRow] at h
    split_ifs at h with hk
    · subst hk
      rcases List.mem_cons.mp h with heq | h
      · obtain ⟨rfl, rfl⟩ := Prod.mk.inj heq
        exact .inr ⟨rfl, .inl ⟨before, List.mem_cons_self, rfl⟩⟩
      · have hkey : key ∈ groups.map Prod.fst := List.mem_map_of_mem (f := Prod.fst) h
        exact .inl ⟨fun heq => hn.1 (heq ▸ hkey), List.mem_cons_of_mem _ h⟩
    · rcases List.mem_cons.mp h with heq | h
      · obtain ⟨rfl, rfl⟩ := Prod.mk.inj heq
        exact .inl ⟨hk, List.mem_cons_self⟩
      · rcases ih hn.2 h with ⟨hne, hmem⟩ | ⟨rfl, ⟨old, hold, rfl⟩ | ⟨hnew, rfl⟩⟩
        · exact .inl ⟨hne, List.mem_cons_of_mem _ hmem⟩
        · exact .inr ⟨rfl, .inl ⟨old, List.mem_cons_of_mem _ hold, rfl⟩⟩
        · refine .inr ⟨rfl, .inr ⟨fun hmem => ?_, rfl⟩⟩
          rcases List.mem_cons.mp hmem with heq | hmem
          · exact hk heq.symm
          · exact hnew hmem

theorem filter_concat_of_ne (h : row.owner ≠ some key) :
    (rows ++ [row]).filter (fun row => row.owner = some key) = rows.filter fun row => row.owner = some key := by
  rw [List.filter_append, List.filter_singleton, decide_eq_false h]
  exact List.append_nil _

theorem filter_concat_of_eq (h : row.owner = some key) :
    (rows ++ [row]).filter (fun row => row.owner = some key) =
      rows.filter (fun row => row.owner = some key) ++ [row] := by
  rw [List.filter_append, List.filter_singleton, decide_eq_true h]
  rfl

theorem Grouped.push (h : Grouped rows groups) (howner : row.owner = some owner) :
    Grouped (rows ++ [row]) (pushRow row owner groups) where
  nodup := by
    rw [keys_pushRow]
    split_ifs with hmem
    · exact h.nodup
    · exact List.nodup_append.mpr ⟨h.nodup, List.nodup_singleton owner,
        fun k hk k' hk' heq => hmem (List.mem_singleton.mp hk' ▸ heq ▸ hk)⟩
  group := by
    intro key group hmem
    -- a group of another owner, the owner's group, or a new one
    rcases mem_pushRow h.nodup hmem with ⟨hne, hold⟩ | ⟨rfl, ⟨before, hold, rfl⟩ | ⟨hnew, rfl⟩⟩
    · rw [filter_concat_of_ne fun heq => hne (Option.some.inj (heq.symm.trans howner))]
      exact h.group key group hold
    · rw [filter_concat_of_eq howner, h.group key before hold]
    · have hnone : rows.filter (fun row => row.owner = some key) = [] :=
        List.filter_eq_nil_iff.mpr fun r hr hown => hnew (h.found r hr key (of_decide_eq_true hown))
      rw [filter_concat_of_eq howner, hnone]
      rfl
  found := by
    intro r hr key hkey
    rw [keys_pushRow]
    rcases List.mem_append.mp hr with hr | hr
    · have hold := h.found r hr key hkey
      split_ifs
      · exact hold
      · exact List.mem_append_left _ hold
    · rw [List.mem_singleton.mp hr, howner] at hkey
      obtain rfl := Option.some.inj hkey
      split_ifs with hmem
      · exact hmem
      · simp

theorem Grouped.skip (h : Grouped rows groups) (howner : row.owner = none) : Grouped (rows ++ [row]) groups where
  nodup := h.nodup
  group := by
    intro key group hmem
    rw [filter_concat_of_ne (by simp [howner])]
    exact h.group key group hmem
  found := by
    intro r hr key hkey
    rcases List.mem_append.mp hr with hr | hr
    · exact h.found r hr key hkey
    · rw [List.mem_singleton.mp hr, howner] at hkey
      cases hkey

theorem groupsByOwner_grouped (rows : List RustFnRow) : Grouped rows (groupsByOwner rows) := by
  induction rows using List.reverseRecOn with
  | nil => exact ⟨List.nodup_nil, fun _ _ h => (nomatch h), fun _ h => (nomatch h)⟩
  | append_singleton rows row ih =>
    rw [groupsByOwner, List.foldl_append, List.foldl_cons, List.foldl_nil]
    cases howner : row.owner with
    | none => exact ih.skip howner
    | some owner => exact ih.push howner

/-- The loop over a group finds the rows that another one of the group contains. -/
theorem mem_nestedIn_iff {id : ℤ} (hspan : ∀ row ∈ group, row.lines.1 ≤ row.lines.2) :
    id ∈ nestedIn group ↔ ∃ row ∈ group, row.id = id ∧
      ∃ other ∈ group, other.lines ≠ row.lines ∧ Within other.lines row.lines := by
  have hsorted : (sortByKey (fun row => sweepKey row.lines) group).Pairwise
      fun a b => sweepKey (RustFnRow.lines a) ≤ sweepKey (RustFnRow.lines b) := by
    have hany : group.Pairwise fun _ _ => True := List.pairwise_of_forall fun _ _ => trivial
    refine (sortByKey_pairwise hany).imp fun h => ?_
    rcases h with hlt | ⟨heq, -⟩
    · exact hlt.le
    · exact heq.le
  simp only [nestedIn, List.mem_map, mem_inside_iff hsorted fun row hrow => hspan row (mem_sortByKey.mp hrow),
    mem_sortByKey]
  constructor
  · rintro ⟨row, ⟨hrow, hother⟩, hid⟩
    exact ⟨row, hrow, hid, hother⟩
  · rintro ⟨row, hrow, hid, hother⟩
    exact ⟨row, ⟨hrow, hother⟩, hid⟩

theorem one_lt_length {α : Type*} {l : List α} {a b : α} (ha : a ∈ l) (hb : b ∈ l) (hne : a ≠ b) : 1 < l.length := by
  match l with
  | [] => cases ha
  | [x] => exact absurd ((List.mem_singleton.mp ha).trans (List.mem_singleton.mp hb).symm) hne
  | x :: y :: l => simp

theorem mem_nestedIds_iff {id : ℤ} (hspan : ∀ row ∈ rows, row.lines.1 ≤ row.lines.2) :
    id ∈ nestedIds rows ↔ ∃ row ∈ rows, row.id = id ∧ Nested rows row := by
  have hgrouped := groupsByOwner_grouped rows
  have hfilter : ∀ {owner : List Char} {r : RustFnRow},
      r ∈ rows.filter (fun row => row.owner = some owner) ↔ r ∈ rows ∧ r.owner = some owner := by
    intro owner r
    rw [List.mem_filter, decide_eq_true_iff]
  have hin : ∀ owner : List Char, ∀ r ∈ rows.filter (fun row => row.owner = some owner), r.lines.1 ≤ r.lines.2 :=
    fun owner r hr => hspan r (hfilter.mp hr).1
  rw [nestedIds, List.mem_flatMap]
  constructor
  · rintro ⟨⟨owner, group⟩, hgroup, hid⟩
    obtain rfl := hgrouped.group owner group (List.mem_filter.mp hgroup).1
    obtain ⟨row, hrow, rfl, other, hother, hcontains⟩ := (mem_nestedIn_iff (hin owner)).mp hid
    obtain ⟨hrow, howner⟩ := hfilter.mp hrow
    obtain ⟨hother, hsame⟩ := hfilter.mp hother
    exact ⟨row, hrow, rfl, by rw [howner]; rfl, other, hother, hsame.trans howner.symm, hcontains⟩
  · rintro ⟨row, hrow, rfl, hsome, other, hother, hsame, hcontains⟩
    obtain ⟨owner, howner⟩ := Option.isSome_iff_exists.mp hsome
    obtain ⟨⟨key, group⟩, hgroup, hkey⟩ := List.mem_map.mp (hgrouped.found row hrow owner howner)
    obtain rfl : key = owner := hkey
    obtain rfl := hgrouped.group key group hgroup
    have hmemRow := hfilter.mpr ⟨hrow, howner⟩
    have hmemOther := hfilter.mpr ⟨hother, hsame.trans howner⟩
    refine ⟨(key, _), List.mem_filter.mpr ⟨hgroup, decide_eq_true ?_⟩, ?_⟩
    · -- the two rows differ, so the group is one that the loop takes
      exact one_lt_length hmemOther hmemRow fun heq => hcontains.1 (congrArg RustFnRow.lines heq)
    · exact (mem_nestedIn_iff (hin key)).mpr ⟨row, hmemRow, rfl, other, hmemOther, hcontains⟩

/-- The row of an id. -/
theorem mem_nestedIds_id_iff (hid : (rows.map RustFnRow.id).Nodup) (hspan : ∀ row ∈ rows, row.lines.1 ≤ row.lines.2)
    (hrow : row ∈ rows) : row.id ∈ nestedIds rows ↔ Nested rows row := by
  rw [mem_nestedIds_iff hspan]
  constructor
  · rintro ⟨r, hr, heq, hnested⟩
    rwa [← List.inj_on_of_nodup_map hid hr hrow heq]
  · intro hnested
    exact ⟨row, hrow, rfl, hnested⟩

variable {isAlphanumeric : Char → Bool}

theorem shapeOfRow_takesSelf (libDir : Option (List Char)) (nested : Bool) (row : RustFnRow) :
    (shapeOfRow isAlphanumeric libDir nested row).takesSelf =
      (rustFnShape isAlphanumeric row.signature row.qualifiedName).takesSelf := by
  rw [shapeOfRow]
  split_ifs <;> rfl

/-- What takes `self` is associated; what does not is, where it has an owner and is not nested. -/
theorem shapeOfRow_associated (libDir : Option (List Char)) (nested : Bool) (row : RustFnRow) :
    (shapeOfRow isAlphanumeric libDir nested row).associated =
      ((shapeOfRow isAlphanumeric libDir nested row).takesSelf || row.owner.isSome && !nested) := by
  rw [shapeOfRow_takesSelf]
  have hshape : (rustFnShape isAlphanumeric row.signature row.qualifiedName).associated =
      ((rustFnShape isAlphanumeric row.signature row.qualifiedName).takesSelf || row.owner.isSome) := rfl
  rw [shapeOfRow]
  cases nested <;> cases hself : (rustFnShape isAlphanumeric row.signature row.qualifiedName).takesSelf <;>
    split_ifs <;> simp_all

/-- The rows of a file are treated as nested just when another row of the owner contains them, in whatever order they
come. -/
theorem rustFnShapesOfFile_nested (path : List Char) (rows : List RustFnRow) (hid : (rows.map RustFnRow.id).Nodup)
    (hspan : ∀ row ∈ rows, row.lines.1 ≤ row.lines.2) :
    rustFnShapesOfFile isAlphanumeric path rows =
        rows.map (fun row => (row.id, shapeOfRow isAlphanumeric (rustLibDir path) (decide (Nested rows row)) row)) ∧
      ∀ row ∈ rows, ∀ shape, (row.id, shape) ∈ rustFnShapesOfFile isAlphanumeric path rows →
        (shape.associated = true ↔ shape.takesSelf = true ∨ row.owner.isSome = true ∧ ¬ Nested rows row) := by
  have hmap : rustFnShapesOfFile isAlphanumeric path rows =
      rows.map fun row => (row.id, shapeOfRow isAlphanumeric (rustLibDir path) (decide (Nested rows row)) row) := by
    refine List.map_congr_left fun row hrow => ?_
    rw [decide_eq_decide.mpr (mem_nestedIds_id_iff hid hspan hrow)]
  refine ⟨hmap, fun row hrow shape hshape => ?_⟩
  rw [hmap] at hshape
  obtain ⟨r, hr, heq⟩ := List.mem_map.mp hshape
  obtain ⟨hsame, rfl⟩ := Prod.mk.inj heq
  obtain rfl := List.inj_on_of_nodup_map hid hr hrow hsame
  rw [shapeOfRow_associated]
  simp

/-- A function within another one of `T`, two that overlap, and two on the same lines. -/
theorem rustFnShapesOfFile_nested_six :
    let row (id : ℤ) (lines : ℕ × ℕ) : RustFnRow := ⟨id, some ['(', ')'], some "T.f".toList, lines, []⟩
    let rows := [row 1 (4, 8), row 2 (6, 9), row 3 (1, 5), row 4 (2, 3), row 5 (12, 12), row 6 (12, 12)]
    (rustFnShapesOfFile Char.isAlphanum "src/a.rs".toList rows).map (fun x => (x.1, x.2.associated)) =
      [(1, true), (2, true), (3, true), (4, false), (5, true), (6, true)] := by
  intro row rows
  rw [(rustFnShapesOfFile_nested "src/a.rs".toList rows (by decide) (by decide)).1]
  decide

end CodeGraph.Pipeline.RustShapes
