import CodeGraph.Lib.Words
import Mathlib.Data.List.Basic
import Mathlib.Data.List.Infix
import Mathlib.Tactic.SplitIfs

/-!
# Quoting on a command line

A command line is cut into parts that say how each of its characters is quoted: bare, behind a backslash, between single
quotes or between double quotes, and there perhaps behind a backslash (`parts`). The parts spell the line
(`render_parts`), and lines and their parts stand for each other (`parts_render`). What quote removal leaves of a part
is its `text`, and the words of a line are the runs of parts without a bare blank.

Quotes inside a substitution are read like any others.
-/

namespace CodeGraph.Lib.Quoting

abbrev apostrophe : Char := Char.ofNat 39
abbrev grave : Char := Char.ofNat 96

/-- What stands between double quotes. -/
inductive Inner
  | plain (c : Char)
  | escape (c : Char)
  deriving DecidableEq

/-- `dangling` is a backslash at the end of the line. -/
inductive Part
  | bare (c : Char)
  | escaped (c : Char)
  | single (text : List Char)
  | double (inner : List Inner)
  | dangling
  deriving DecidableEq

/-- The characters that a backslash quotes between double quotes. -/
def escapable : List Char := ['"', '\\', '$', grave, '\n']

namespace Inner

def render : Inner → List Char
  | plain c => [c]
  | escape c => ['\\', c]

/-- A backslash before a newline goes with it, and before other characters than `escapable` it stays. -/
def text : Inner → List Char
  | plain c => [c]
  | escape c => if c = '\n' then [] else if c ∈ escapable then [c] else ['\\', c]

def Closed : Inner → Prop
  | plain c => c ≠ '"' ∧ c ≠ '\\'
  | escape _ => True

end Inner

namespace Part

def render : Part → List Char
  | bare c => [c]
  | escaped c => ['\\', c]
  | single text => apostrophe :: (text ++ [apostrophe])
  | double inner => '"' :: (inner.flatMap Inner.render ++ ['"'])
  | dangling => ['\\']

/-- What quote removal leaves. -/
def text : Part → List Char
  | bare c => [c]
  | escaped c => if c = '\n' then [] else [c]
  | single text => text
  | double inner => inner.flatMap Inner.text
  | dangling => ['\\']

def blank : Part → Bool
  | bare c => c = ' ' ∨ c = '\t' ∨ c = '\n'
  | _ => false

/-- A part with quotes around it. -/
def quoted : Part → Bool
  | single _ | double _ => true
  | _ => false

/-- A line continuation, which the shell takes out before it reads words. -/
def continuation (p : Part) : Bool := p = .escaped '\n'

/-- The part ends where it is read to end, whatever is behind it. -/
def Closed : Part → Prop
  | bare c => c ≠ '\\' ∧ c ≠ apostrophe ∧ c ≠ '"'
  | escaped _ => True
  | single text => apostrophe ∉ text
  | double inner => ∀ i ∈ inner, i.Closed
  | dangling => False

end Part

inductive Mode
  | outside
  | escaped
  | single (text : List Char)
  | double (inner : List Inner)
  | doubleEscaped (inner : List Inner)

def lex : Mode → List Char → Option (List Part)
  | .outside, [] => some []
  | .escaped, [] => some [.dangling]
  | .single _, [] => none
  | .double _, [] => none
  | .doubleEscaped _, [] => none
  | .outside, c :: rest =>
    if c = '\\' then lex .escaped rest
    else if c = apostrophe then lex (.single []) rest
    else if c = '"' then lex (.double []) rest
    else (lex .outside rest).map (Part.bare c :: ·)
  | .escaped, c :: rest => (lex .outside rest).map (Part.escaped c :: ·)
  | .single text, c :: rest =>
    if c = apostrophe then (lex .outside rest).map (Part.single text :: ·) else lex (.single (text ++ [c])) rest
  | .double inner, c :: rest =>
    if c = '"' then (lex .outside rest).map (Part.double inner :: ·)
    else if c = '\\' then lex (.doubleEscaped inner) rest
    else lex (.double (inner ++ [.plain c])) rest
  | .doubleEscaped inner, c :: rest => lex (.double (inner ++ [.escape c])) rest

/-- The parts of a line whose quotes are balanced. -/
def parts (line : List Char) : Option (List Part) := lex .outside line

def render (ps : List Part) : List Char := ps.flatMap Part.render

/-- Quote removal. -/
def text (ps : List Part) : List Char := ps.flatMap Part.text

/-- The words of a line, before quote removal. -/
def words (ps : List Part) : List (List Part) := Lib.words Part.blank (ps.filter fun p => !p.continuation)

/-- Only the last part can be a dangling backslash. -/
inductive Proper : List Part → Prop
  | nil : Proper []
  | dangling : Proper [.dangling]
  | cons {p : Part} {ps : List Part} : p.Closed → Proper ps → Proper (p :: ps)

variable {p : Part} {ps qs : List Part} {line rest : List Char}

@[simp] theorem render_nil : render [] = [] := rfl

@[simp] theorem render_cons : render (p :: ps) = p.render ++ render ps := rfl

@[simp] theorem render_append : render (ps ++ qs) = render ps ++ render qs := List.flatMap_append

@[simp] theorem text_nil : text [] = [] := rfl

@[simp] theorem text_cons : text (p :: ps) = p.text ++ text ps := rfl

@[simp] theorem text_append : text (ps ++ qs) = text ps ++ text qs := List.flatMap_append

/-! ### Lines and their parts -/

/-- What has been read of the open part. -/
def Mode.opened : Mode → List Char
  | outside => []
  | escaped => ['\\']
  | single text => apostrophe :: text
  | double inner => '"' :: inner.flatMap Inner.render
  | doubleEscaped inner => '"' :: (inner.flatMap Inner.render ++ ['\\'])

def Mode.Closed : Mode → Prop
  | outside | escaped => True
  | single text => apostrophe ∉ text
  | double inner | doubleEscaped inner => ∀ i ∈ inner, i.Closed

theorem closed_concat {inner : List Inner} {i : Inner} (h : ∀ j ∈ inner, j.Closed) (hi : i.Closed) :
    ∀ j ∈ inner ++ [i], j.Closed := by
  intro j hj
  rcases List.mem_append.mp hj with hj | hj
  · exact h j hj
  · exact List.mem_singleton.mp hj ▸ hi

theorem lex_spec {m : Mode} (hm : m.Closed) (h : lex m line = some ps) :
    render ps = m.opened ++ line ∧ Proper ps := by
  induction line generalizing m ps with
  | nil =>
    cases m with
    | outside =>
      cases h
      exact ⟨rfl, .nil⟩
    | escaped =>
      cases h
      exact ⟨rfl, .dangling⟩
    | single | double | doubleEscaped => cases h
  | cons c rest ih =>
    -- a part that ends here, and those behind it
    have hends : ∀ p : Part, p.Closed → p.render = m.opened ++ [c] →
        (lex .outside rest).map (p :: ·) = some ps → render ps = m.opened ++ c :: rest ∧ Proper ps := by
      intro p hp hrender hmap
      obtain ⟨qs, hqs, rfl⟩ := Option.map_eq_some_iff.mp hmap
      obtain ⟨hline, hproper⟩ := ih (show Mode.outside.Closed from trivial) hqs
      refine ⟨?_, .cons hp hproper⟩
      rw [render_cons, hrender, hline, List.append_assoc]
      rfl
    have hgoes : ∀ m' : Mode, m'.Closed → m'.opened = m.opened ++ [c] → lex m' rest = some ps →
        render ps = m.opened ++ c :: rest ∧ Proper ps := by
      intro m' hm' hopened hlex
      obtain ⟨hline, hproper⟩ := ih hm' hlex
      refine ⟨?_, hproper⟩
      rw [hline, hopened, List.append_assoc]
      rfl
    cases m with
    | outside =>
      rw [lex] at h
      split_ifs at h with hescape hsingle hdouble
      · exact hgoes .escaped trivial (by rw [hescape]; rfl) h
      · exact hgoes (.single []) List.not_mem_nil (by rw [hsingle]; rfl) h
      · exact hgoes (.double []) (fun _ hi => absurd hi List.not_mem_nil) (by rw [hdouble]; rfl) h
      · exact hends (.bare c) ⟨hescape, hsingle, hdouble⟩ rfl h
    | escaped => exact hends (.escaped c) trivial rfl h
    | single text =>
      rw [lex] at h
      split_ifs at h with hquote
      · exact hends (.single text) hm (by rw [hquote]; rfl) h
      · refine hgoes (.single (text ++ [c])) ?_ rfl h
        show apostrophe ∉ text ++ [c]
        rw [List.mem_append, List.mem_singleton, not_or]
        exact ⟨hm, fun heq => hquote heq.symm⟩
    | double inner =>
      rw [lex] at h
      split_ifs at h with hquote hescape
      · exact hends (.double inner) hm (by rw [hquote]; rfl) h
      · exact hgoes (.doubleEscaped inner) hm (by rw [hescape]; rfl) h
      · have hplain : (Inner.plain c).Closed := ⟨hquote, hescape⟩
        refine hgoes (.double (inner ++ [.plain c])) (closed_concat hm hplain) ?_ h
        show '"' :: (inner ++ [Inner.plain c]).flatMap Inner.render = _
        rw [List.flatMap_append]
        rfl
    | doubleEscaped inner =>
      rw [lex] at h
      refine hgoes (.double (inner ++ [.escape c])) (closed_concat hm (show (Inner.escape c).Closed from trivial)) ?_ h
      show '"' :: (inner ++ [Inner.escape c]).flatMap Inner.render =
        '"' :: (inner.flatMap Inner.render ++ ['\\']) ++ [c]
      rw [List.flatMap_append, List.cons_append, List.append_assoc]
      rfl

/-- The parts of a line spell it. -/
theorem render_parts (h : parts line = some ps) : render ps = line :=
  (lex_spec (show Mode.outside.Closed from trivial) h).1

theorem proper_parts (h : parts line = some ps) : Proper ps := (lex_spec (show Mode.outside.Closed from trivial) h).2

theorem lex_single {read text : List Char} (h : apostrophe ∉ text) :
    lex (.single read) (text ++ apostrophe :: rest) = (lex .outside rest).map (Part.single (read ++ text) :: ·) := by
  induction text generalizing read with
  | nil => rw [List.nil_append, lex, if_pos rfl, List.append_nil]
  | cons c text ih =>
    rw [List.mem_cons, not_or] at h
    rw [List.cons_append, lex, if_neg (Ne.symm h.1), ih h.2, List.append_assoc]
    rfl

theorem lex_double {read inner : List Inner} (h : ∀ i ∈ inner, i.Closed) :
    lex (.double read) (inner.flatMap Inner.render ++ '"' :: rest) =
      (lex .outside rest).map (Part.double (read ++ inner) :: ·) := by
  induction inner generalizing read with
  | nil =>
    rw [List.flatMap_nil, List.nil_append, lex, if_pos rfl, List.append_nil]
  | cons i inner ih =>
    have hrest := fun j hj => h j (List.mem_cons_of_mem i hj)
    rw [List.flatMap_cons, List.append_assoc]
    cases i with
    | plain c =>
      obtain ⟨hquote, hescape⟩ := h _ List.mem_cons_self
      show lex (.double read) (c :: (inner.flatMap Inner.render ++ '"' :: rest)) = _
      rw [lex, if_neg hquote, if_neg hescape, ih hrest, List.append_assoc]
      rfl
    | escape c =>
      show lex (.double read) ('\\' :: c :: (inner.flatMap Inner.render ++ '"' :: rest)) = _
      rw [lex, if_neg (by decide), if_pos rfl, lex, ih hrest, List.append_assoc]
      rfl

/-- A closed part is read as itself, whatever is behind it. -/
theorem lex_render (hp : p.Closed) : lex .outside (p.render ++ rest) = (lex .outside rest).map (p :: ·) := by
  cases p with
  | bare c =>
    show lex .outside (c :: rest) = _
    rw [lex, if_neg hp.1, if_neg hp.2.1, if_neg hp.2.2]
  | escaped c =>
    show lex .outside ('\\' :: c :: rest) = _
    rw [lex, if_pos rfl, lex]
  | single text =>
    show lex .outside (apostrophe :: (text ++ [apostrophe] ++ rest)) = _
    rw [lex, if_neg (by decide), if_pos rfl, List.append_assoc]
    exact lex_single hp
  | double inner =>
    show lex .outside ('"' :: (inner.flatMap Inner.render ++ ['"'] ++ rest)) = _
    rw [lex, if_neg (by decide), if_neg (by decide), if_pos rfl, List.append_assoc]
    exact lex_double hp
  | dangling => exact absurd hp id

/-- Proper parts are those of the line that they spell. -/
theorem parts_render (h : Proper ps) : parts (render ps) = some ps := by
  induction h with
  | nil => rfl
  | dangling => rfl
  | cons hp _ ih => rw [render_cons, parts, lex_render hp, ← parts, ih, Option.map_some]

theorem Proper.tail (h : Proper (p :: ps)) : Proper ps := by
  cases h with
  | dangling => exact .nil
  | cons _ hrest => exact hrest

theorem Proper.append_right (h : Proper (ps ++ qs)) : Proper qs := by
  induction ps with
  | nil => exact h
  | cons p ps ih => exact ih h.tail

/-- A part with others behind it is closed. -/
theorem Proper.closed (h : Proper (p :: ps)) (hps : ps ≠ []) : p.Closed := by
  cases h with
  | dangling => exact absurd rfl hps
  | cons hp _ => exact hp

theorem Proper.append_left (h : Proper (ps ++ qs)) : Proper ps := by
  induction ps with
  | nil => exact .nil
  | cons p ps ih =>
    by_cases hps : ps = []
    · subst hps
      by_cases hp : p = .dangling
      · exact hp ▸ .dangling
      · cases h with
        | dangling => exact absurd rfl hp
        | cons hclosed _ => exact .cons hclosed .nil
    · exact .cons (h.closed (by simp [hps])) (ih h.tail)

/-- Parts with others behind them are closed. -/
theorem Proper.closed_left (h : Proper (ps ++ qs)) (hqs : qs ≠ []) : ∀ p ∈ ps, p.Closed := by
  induction ps with
  | nil => exact fun _ hp => absurd hp List.not_mem_nil
  | cons p ps ih =>
    rintro q hq
    rcases List.mem_cons.mp hq with rfl | hq
    · exact h.closed (by simp [hqs])
    · exact ih h.tail q hq

/-! ### What else a line can hold -/

/-- A `<<` that opens a here-document. A `<<<` does not. -/
def heredoc : List Part → Bool
  | .bare '<' :: .bare '<' :: .bare '<' :: ps => heredoc ps
  | .bare '<' :: .bare '<' :: _ => true
  | _ :: ps => heredoc ps
  | [] => false

/-- A `((`. -/
def arithmetic (ps : List Part) : Bool := [.bare '(', .bare '('] <:+: ps

/-- A word starts behind this part. -/
def startsWord : Option Part → Bool
  | none => true
  | some p => p.blank ∨ p ∈ [.bare ';', .bare '&', .bare '|', .bare '(', .bare ')', .bare '<', .bare '>']

/-- A `#` where a word starts. The first argument is the part before, line continuations apart. -/
def comment : Option Part → List Part → Bool
  | _, [] => false
  | before, p :: ps =>
    if p.continuation then comment before ps else (p = .bare '#' && startsWord before) || comment (some p) ps

theorem heredoc_cons (h : ¬(p = .bare '<' ∧ ps.head? = some (.bare '<'))) : heredoc (p :: ps) = heredoc ps := by
  rw [heredoc]
  · rintro qs rfl rfl
    exact h ⟨rfl, rfl⟩
  · rintro qs rfl rfl
    exact h ⟨rfl, rfl⟩

/-- Without here-documents a `<<` is a `<<<`. -/
theorem heredoc_string (h : heredoc (.bare '<' :: .bare '<' :: ps) = false) :
    ∃ qs, ps = .bare '<' :: qs ∧ heredoc qs = false := by
  by_cases hhead : ps.head? = some (.bare '<')
  · obtain ⟨qs, rfl⟩ := List.head?_eq_some_iff.mp hhead
    exact ⟨qs, rfl, h⟩
  · exfalso
    have htrue : heredoc (.bare '<' :: .bare '<' :: ps) = true := by
      rw [heredoc]
      rintro qs rfl
      exact hhead rfl
    rw [htrue] at h
    cases h

theorem heredoc_append (h : heredoc (ps ++ qs) = false) (hqs : qs.head? ≠ some (.bare '<')) : heredoc ps = false := by
  induction hn : ps.length using Nat.strong_induction_on generalizing ps with
  | _ n ih =>
    cases ps with
    | nil => rfl
    | cons p ps =>
      rw [List.length_cons] at hn
      by_cases hstring : p = .bare '<' ∧ ps.head? = some (.bare '<')
      · obtain ⟨rfl, hhead⟩ := hstring
        obtain ⟨ps, rfl⟩ := List.head?_eq_some_iff.mp hhead
        obtain ⟨rs, hrs, hdoc⟩ := heredoc_string h
        cases ps with
        | nil =>
          have hqs' : qs = .bare '<' :: rs := hrs
          exact absurd (by rw [hqs']; rfl) hqs
        | cons q ps =>
          obtain ⟨rfl, rfl⟩ := List.cons.inj hrs
          rw [List.length_cons, List.length_cons] at hn
          show heredoc ps = false
          exact ih ps.length (by omega) hdoc rfl
      · rw [heredoc_cons hstring]
        refine ih ps.length (by omega) ?_ rfl
        rw [List.cons_append, heredoc_cons] at h
        · exact h
        · rintro ⟨hp, hhead⟩
          cases ps with
          | nil => exact hqs hhead
          | cons q ps => exact hstring ⟨hp, hhead⟩

theorem comment_append {before : Option Part} (h : comment before (ps ++ qs) = false) : comment before ps = false := by
  induction ps generalizing before with
  | nil => rfl
  | cons p ps ih =>
    rw [List.cons_append, comment] at h
    rw [comment]
    split_ifs at h ⊢
    · exact ih h
    · rw [Bool.or_eq_false_iff] at h ⊢
      exact ⟨h.1, ih h.2⟩

theorem not_infix_of_arithmetic (h : arithmetic ps = false) : ¬[.bare '(', .bare '('] <:+: ps := by
  unfold arithmetic at h
  exact of_decide_eq_false h

theorem arithmetic_within (h : arithmetic ps = false) (hqs : qs <:+: ps) : arithmetic qs = false := by
  unfold arithmetic
  rw [decide_eq_false_iff_not]
  exact fun hin => not_infix_of_arithmetic h (hin.trans hqs)

end CodeGraph.Lib.Quoting
