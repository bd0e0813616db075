import CodeGraph.Lib.Words

/-!
# TOML, line by line

The TOML texts made of table headers, comments, blank lines and key/value lines that each stand on one line, with their
layout (`Document.render`), and what they say: their values, each at its path (`Document.leaves`). The elements of an
array have no names, so an array is a leaf, of which only the text matters.

`valid` is what TOML demands of the text of a part for the text to be read back as that part.
-/

namespace CodeGraph.Lib.Toml

/-- A space or a tab. -/
inductive Gap
  | space | tab
  deriving DecidableEq

def Gap.char : Gap → Char
  | space => ' '
  | tab => '\t'

/-- White space on a line. -/
def gaps (g : List Gap) : List Char := g.map Gap.char

abbrev literalQuote : Char := Char.ofNat 39

/-! ### Strings -/

/-- What stands between the quotes of a basic string: a character, or an escape behind a backslash. -/
inductive Piece
  | plain (c : Char)
  | escape (spelled : List Char)
  deriving DecidableEq

def isHex (c : Char) : Bool := ('0' ≤ c ∧ c ≤ '9') ∨ ('a' ≤ c ∧ c ≤ 'f') ∨ ('A' ≤ c ∧ c ≤ 'F')

def hexValue (c : Char) : ℕ := if c ≤ '9' then c.toNat - 48 else if c ≤ 'F' then c.toNat - 55 else c.toNat - 87

/-- The character with a hexadecimal code. -/
def codePoint (digits : List Char) : Option Char :=
  let n := digits.foldl (fun n c => 16 * n + hexValue c) 0
  if digits.all isHex ∧ n.isValidChar then some (Char.ofNat n) else none

/-- What an escape stands for. -/
def unescape : List Char → Option Char
  | ['b'] => some (Char.ofNat 8)
  | ['t'] => some '\t'
  | ['n'] => some '\n'
  | ['f'] => some (Char.ofNat 12)
  | ['r'] => some '\r'
  | ['"'] => some '"'
  | ['\\'] => some '\\'
  | 'u' :: digits => if digits.length = 4 then codePoint digits else none
  | 'U' :: digits => if digits.length = 8 then codePoint digits else none
  | _ => none

namespace Piece

def render : Piece → List Char
  | plain c => [c]
  | escape spelled => '\\' :: spelled

def value : Piece → Option Char
  | plain c => some c
  | escape spelled => unescape spelled

/-- In a basic string that ends with one quote. -/
def valid : Piece → Bool
  | plain c => c ≠ '"' ∧ c ≠ '\\' ∧ c ≠ '\n'
  | escape spelled => (unescape spelled).isSome

end Piece

/-- A string on one line. The blocks stand between three quotes, and hold quotes themselves. -/
inductive Str
  | basic (pieces : List Piece)
  | literal (text : List Char)
  | basicBlock (pieces : List Piece)
  | literalBlock (text : List Char)
  deriving DecidableEq

namespace Str

def render : Str → List Char
  | basic pieces => '"' :: (pieces.flatMap Piece.render ++ ['"'])
  | literal text => literalQuote :: (text ++ [literalQuote])
  | basicBlock pieces => '"' :: '"' :: '"' :: (pieces.flatMap Piece.render ++ ['"', '"', '"'])
  | literalBlock text =>
    literalQuote :: literalQuote :: literalQuote :: (text ++ [literalQuote, literalQuote, literalQuote])

def value : Str → List Char
  | basic pieces | basicBlock pieces => pieces.filterMap Piece.value
  | literal text | literalBlock text => text

def valid : Str → Bool
  | basic pieces => pieces.all Piece.valid
  | literal text => literalQuote ∉ text ∧ '\n' ∉ text
  | basicBlock pieces => pieces.all fun p => p = .plain '"' || p.valid
  | literalBlock text => '\n' ∉ text

end Str

/-! ### Keys -/

/-- A key without dots. -/
inductive Name
  | bare (text : List Char)
  | quoted (s : Str)
  deriving DecidableEq

def bareChar (c : Char) : Bool :=
  ('a' ≤ c ∧ c ≤ 'z') ∨ ('A' ≤ c ∧ c ≤ 'Z') ∨ ('0' ≤ c ∧ c ≤ '9') ∨ c = '_' ∨ c = '-'

namespace Name

def render : Name → List Char
  | bare text => text
  | quoted s => s.render

def value : Name → List Char
  | bare text => text
  | quoted s => s.value

def valid : Name → Bool
  | bare text => text ≠ [] ∧ text.all bareChar
  | quoted s => s.valid

end Name

/-- A step to a value: by the key of a table, or to an element of an array of tables. -/
inductive Step
  | key (name : List Char)
  | element (n : ℕ)
  deriving DecidableEq

abbrev Path := List Step

/-- A dotted key. Each name but the first has the white space before and after its dot. -/
structure Key where
  first : Name
  others : List (List Gap × List Gap × Name)

namespace Key

/-- The names behind the first, with their dots. -/
def renderOthers (others : List (List Gap × List Gap × Name)) : List Char :=
  others.flatMap fun o => gaps o.1 ++ '.' :: (gaps o.2.1 ++ o.2.2.render)

def render (k : Key) : List Char := k.first.render ++ renderOthers k.others

def names (k : Key) : List (List Char) := k.first.value :: k.others.map fun o => o.2.2.value

def path (k : Key) : Path := k.names.map .key

def valid (k : Key) : Bool := k.first.valid && k.others.all fun o => o.2.2.valid

/-- The last name is bare, with no white space behind its dot. -/
def EndsIn (k : Key) (word : List Char) : Prop :=
  k.first = .bare word ∧ k.others = [] ∨ ∃ others g, k.others = others ++ [(g, [], .bare word)]

/-- One name more, right behind the key. -/
def snoc (k : Key) (g : List Gap) (n : Name) : Key := ⟨k.first, k.others ++ [([], g, n)]⟩

end Key

/-! ### Values -/

mutual

/-- `other` is the text of a boolean or of an array. -/
inductive Value
  | string (s : Str)
  | other (text : List Char)
  | table (entries : Entries) (close : List Gap)

/-- The entries of an inline table, each with the white space around its parts. -/
inductive Entries
  | nil
  | cons (lead : List Gap) (key : Key) (before after : List Gap) (value : Value) (behind : List Gap) (rest : Entries)

end

def Entries.comma : Entries → List Char
  | .nil => []
  | .cons .. => [',']

mutual

def Value.render : Value → List Char
  | .string s => s.render
  | .other text => text
  | .table entries close => '{' :: (entries.render ++ (gaps close ++ ['}']))

def Entries.render : Entries → List Char
  | .nil => []
  | .cons lead key before after value behind rest =>
    gaps lead ++ (key.render ++ (gaps before ++ '=' :: (gaps after ++ (value.render ++ (gaps behind ++
      (rest.comma ++ rest.render))))))

end

mutual

/-- The values below a path that are no inline tables, with the texts of those that are strings. -/
def Value.leaves (path : Path) : Value → List (Path × Option (List Char))
  | .string s => [(path, some s.value)]
  | .other _ => [(path, none)]
  | .table entries _ => entries.leaves path

def Entries.leaves (path : Path) : Entries → List (Path × Option (List Char))
  | .nil => []
  | .cons _ key _ _ value _ rest => value.leaves (path ++ key.path) ++ rest.leaves path

end

/-- An entry of an inline table with a bare key, and what is behind its key in the text of the entries. -/
def Entries.Holds (word : List Char) (value : Value) (tail : List Char) : Entries → Prop
  | .nil => False
  | .cons _ key before after v behind rest =>
    (key = ⟨.bare word, []⟩ ∧ value = v ∧ tail = gaps before ++ '=' :: (gaps after ++ (v.render ++ (gaps behind ++
      (rest.comma ++ rest.render))))) ∨ rest.Holds word value tail

/-- The text of a boolean, or of an array on one line, from its bracket to its bracket. -/
def validOther (text : List Char) : Bool :=
  '\n' ∉ text ∧ (text = ['t', 'r', 'u', 'e'] ∨ text = ['f', 'a', 'l', 's', 'e'] ∨
    text.head? = some '[' ∧ text.getLast? = some ']')

mutual

def Value.valid : Value → Bool
  | .string s => s.valid
  | .other text => validOther text
  | .table entries _ => entries.valid

def Entries.valid : Entries → Bool
  | .nil => true
  | .cons _ key _ _ value _ rest => key.valid && value.valid && rest.valid

end

/-! ### Lines -/

/-- `[key]`, or `[[key]]` for the next element of an array of tables. -/
structure Header where
  array : Bool
  lead : List Gap
  before : List Gap
  key : Key
  after : List Gap
  behind : List Gap
  comment : Option (List Char)

structure KeyValue where
  lead : List Gap
  key : Key
  before : List Gap
  after : List Gap
  value : Value
  behind : List Gap
  comment : Option (List Char)

inductive Line
  | blank (gaps : List Gap)
  | comment (lead : List Gap) (text : List Char)
  | header (h : Header)
  | keyValue (kv : KeyValue)

/-- A line, with a carriage return at its end or without. -/
structure Row where
  line : Line
  cr : Bool

abbrev Document := List Row

def renderComment : Option (List Char) → List Char
  | none => []
  | some text => '#' :: text

def Header.render (h : Header) : List Char :=
  gaps h.lead ++ ((if h.array then ['[', '['] else ['[']) ++ (gaps h.before ++ (h.key.render ++ (gaps h.after ++
    ((if h.array then [']', ']'] else [']']) ++ (gaps h.behind ++ renderComment h.comment))))))

def KeyValue.render (kv : KeyValue) : List Char :=
  gaps kv.lead ++ (kv.key.render ++ (gaps kv.before ++ '=' :: (gaps kv.after ++ (kv.value.render ++
    (gaps kv.behind ++ renderComment kv.comment)))))

def Line.render : Line → List Char
  | blank g => gaps g
  | comment lead text => gaps lead ++ '#' :: text
  | header h => h.render
  | keyValue kv => kv.render

def carriageReturn (cr : Bool) : List Char := if cr then ['\r'] else []

def Row.render (r : Row) : List Char := r.line.render ++ carriageReturn r.cr

def validComment : Option (List Char) → Bool
  | none => true
  | some text => '\n' ∉ text

def Line.valid : Line → Bool
  | blank _ => true
  | comment _ text => '\n' ∉ text
  | header h => h.key.valid && validComment h.comment
  | keyValue kv => kv.key.valid && kv.value.valid && validComment kv.comment

/-! ### What a text says -/

/-- The arrays of tables so far, each with its last element. -/
abbrev Arrays := List (Path × ℕ)

/-- The path that names lead to. A name of an array of tables stands for its last element. -/
def resolve (arrays : Arrays) (path : Path) : List (List Char) → Path
  | [] => path
  | name :: names =>
    match arrays.lookup (path ++ [.key name]) with
    | none => resolve arrays (path ++ [.key name]) names
    | some n => resolve arrays (path ++ [.key name, .element n]) names

/-- The table that a header opens. Each array header, the `n`th of the text, opens an element of its own. -/
def openTable (arrays : Arrays) (n : ℕ) (h : Header) : Path × Arrays :=
  if h.array then
    let array := resolve arrays [] h.key.names.dropLast ++ (h.key.names.getLast?.map Step.key).toList
    (array ++ [.element n], (array, n) :: arrays)
  else (resolve arrays [] h.key.names, arrays)

/-- A key/value line, below its header and in its table. -/
structure Entry where
  header : Option Header
  table : Path
  keyValue : KeyValue

def Entry.leaves (e : Entry) : List (Path × Option (List Char)) :=
  e.keyValue.value.leaves (e.table ++ e.keyValue.key.path)

namespace Document

def entriesFrom (header : Option Header) (table : Path) (arrays : Arrays) (n : ℕ) : Document → List Entry
  | [] => []
  | row :: rows =>
    match row.line with
    | .header h =>
      let opened := openTable arrays n h
      entriesFrom (some h) opened.1 opened.2 (n + 1) rows
    | .keyValue kv => ⟨header, table, kv⟩ :: entriesFrom header table arrays n rows
    | _ => entriesFrom header table arrays n rows

/-- The key/value lines. -/
def entries (d : Document) : List Entry := entriesFrom none [] [] 0 d

def leaves (d : Document) : List (Path × Option (List Char)) := d.entries.flatMap Entry.leaves

def render (d : Document) : List Char := ['\n'].intercalate (d.map Row.render)

/-- Every line is spelled rightly, and no value is given twice. -/
structure Valid (d : Document) : Prop where
  lines : ∀ row ∈ d, row.line.valid = true
  once : (d.leaves.map Prod.fst).Nodup

/-- The value at a path, if it is a string. -/
def text (d : Document) (path : Path) : Option (List Char) := (d.leaves.find? fun leaf => leaf.1 = path).bind Prod.snd

end Document

variable {path : Path} {d : Document}

/-- Where no value is given twice, the text at a path is that of the leaf there. -/
theorem Document.text_eq_some {v : List Char} (h : d.Valid) : d.text path = some v ↔ (path, some v) ∈ d.leaves := by
  have honce := h.once
  unfold Document.text
  generalize d.leaves = leaves at honce ⊢
  induction leaves with
  | nil => simp
  | cons leaf leaves ih =>
    rw [List.map_cons, List.nodup_cons] at honce
    rw [List.mem_cons, List.find?_cons]
    by_cases hpath : leaf.1 = path
    · have hnot : (path, some v) ∉ leaves := fun hmem => honce.1 (hpath ▸ List.mem_map_of_mem hmem)
      rw [decide_eq_true hpath, or_iff_left hnot]
      show leaf.2 = some v ↔ (path, some v) = leaf
      rw [← hpath]
      exact ⟨fun heq => by rw [← heq], fun heq => by rw [← heq]⟩
    · rw [decide_eq_false hpath, or_iff_right fun heq => hpath (by rw [← heq])]
      exact ih honce.2

/-! ### The characters of a text -/

theorem newline_not_mem_gaps (g : List Gap) : '\n' ∉ gaps g := by
  unfold gaps
  rw [List.mem_map]
  rintro ⟨gap, -, heq⟩
  cases gap <;> exact absurd heq (by decide)

theorem newline_not_mem_unescape {spelled : List Char} (h : (unescape spelled).isSome) : '\n' ∉ spelled := by
  have hhex : ∀ digits : List Char, (codePoint digits).isSome → '\n' ∉ digits := by
    intro digits hcode hmem
    unfold codePoint at hcode
    dsimp only at hcode
    split_ifs at hcode with hall
    · exact absurd (List.all_eq_true.mp hall.1 _ hmem) (by decide)
    · cases hcode
  unfold unescape at h
  split at h
  case h_8 digits =>
    split_ifs at h
    · rw [List.mem_cons, not_or]
      exact ⟨by decide, hhex digits h⟩
    · cases h
  case h_9 digits =>
    split_ifs at h
    · rw [List.mem_cons, not_or]
      exact ⟨by decide, hhex digits h⟩
    · cases h
  case h_10 => cases h
  all_goals decide

theorem Piece.newline_not_mem_render {p : Piece} (h : p = .plain '"' ∨ p.valid = true) : '\n' ∉ p.render := by
  rcases h with rfl | h
  · decide
  cases p with
  | plain c =>
    have hc : c ≠ '"' ∧ c ≠ '\\' ∧ c ≠ '\n' := of_decide_eq_true h
    exact fun hmem => hc.2.2 (List.mem_singleton.mp hmem).symm
  | escape spelled =>
    rw [Piece.render, List.mem_cons, not_or]
    exact ⟨by decide, newline_not_mem_unescape h⟩

theorem Str.newline_not_mem_render {s : Str} (h : s.valid = true) : '\n' ∉ s.render := by
  have hpieces : ∀ pieces : List Piece, (∀ p ∈ pieces, p = .plain '"' ∨ p.valid = true) →
      '\n' ∉ pieces.flatMap Piece.render := by
    intro pieces hall hmem
    obtain ⟨p, hp, hin⟩ := List.mem_flatMap.mp hmem
    exact Piece.newline_not_mem_render (hall p hp) hin
  have hquote : '\n' ≠ literalQuote := by decide
  cases s with
  | basic pieces =>
    have hin := hpieces pieces fun p hp => .inr (List.all_eq_true.mp h p hp)
    simp [Str.render, hin]
  | literal text =>
    have hin : literalQuote ∉ text ∧ '\n' ∉ text := of_decide_eq_true h
    simp [Str.render, hin.2, hquote]
  | basicBlock pieces =>
    have hin := hpieces pieces fun p hp => by
      have hor := List.all_eq_true.mp h p hp
      rw [Bool.or_eq_true, decide_eq_true_eq] at hor
      exact hor
    simp [Str.render, hin]
  | literalBlock text =>
    have hin : '\n' ∉ text := of_decide_eq_true h
    simp [Str.render, hin, hquote]

theorem newline_not_bare : bareChar '\n' = false := by decide

theorem Name.newline_not_mem_render {n : Name} (h : n.valid = true) : '\n' ∉ n.render := by
  cases n with
  | bare text =>
    have hall : text ≠ [] ∧ text.all bareChar = true := of_decide_eq_true h
    exact fun hmem => absurd (List.all_eq_true.mp hall.2 _ hmem) (by rw [newline_not_bare]; decide)
  | quoted s => exact Str.newline_not_mem_render h

theorem Key.newline_not_mem_render {k : Key} (h : k.valid = true) : '\n' ∉ k.render := by
  unfold Key.valid at h
  rw [Bool.and_eq_true] at h
  rw [Key.render, List.mem_append, not_or, Key.renderOthers]
  refine ⟨Name.newline_not_mem_render h.1, fun hmem => ?_⟩
  obtain ⟨o, ho, hin⟩ := List.mem_flatMap.mp hmem
  have hname := Name.newline_not_mem_render (List.all_eq_true.mp h.2 o ho)
  simp [newline_not_mem_gaps, hname] at hin

mutual

theorem Value.newline_not_mem_render : ∀ {v : Value}, v.valid = true → '\n' ∉ v.render
  | .string _, h => Str.newline_not_mem_render h
  | .other text, h => by
    have hother : '\n' ∉ text ∧ _ := of_decide_eq_true h
    exact hother.1
  | .table entries close, h => by
    have hentries := Entries.newline_not_mem_render (show entries.valid = true from h)
    simp [Value.render, hentries, newline_not_mem_gaps]

theorem Entries.newline_not_mem_render : ∀ {entries : Entries}, entries.valid = true → '\n' ∉ entries.render
  | .nil, _ => List.not_mem_nil
  | .cons lead key before after value behind rest, h => by
    rw [Entries.valid, Bool.and_eq_true, Bool.and_eq_true] at h
    have hkey := Key.newline_not_mem_render h.1.1
    have hvalue := Value.newline_not_mem_render h.1.2
    have hrest := Entries.newline_not_mem_render h.2
    have hcomma : '\n' ∉ rest.comma := by cases rest <;> simp [Entries.comma]
    simp [Entries.render, hkey, hvalue, hrest, hcomma, newline_not_mem_gaps]

end

theorem newline_not_mem_renderComment {comment : Option (List Char)} (h : validComment comment = true) :
    '\n' ∉ renderComment comment := by
  cases comment with
  | none => exact List.not_mem_nil
  | some text =>
    have htext : '\n' ∉ text := of_decide_eq_true h
    simp [renderComment, htext]

theorem Row.newline_not_mem_render {r : Row} (h : r.line.valid = true) : '\n' ∉ r.render := by
  have hcr : '\n' ∉ carriageReturn r.cr := by cases r.cr <;> decide
  rw [Row.render, List.mem_append, not_or]
  refine ⟨?_, hcr⟩
  cases hline : r.line with
  | blank g => exact newline_not_mem_gaps g
  | comment lead text =>
    rw [hline] at h
    have htext : '\n' ∉ text := of_decide_eq_true h
    simp [Line.render, htext, newline_not_mem_gaps]
  | header head =>
    rw [hline, Line.valid, Bool.and_eq_true] at h
    have hkey := Key.newline_not_mem_render h.1
    have hcomment := newline_not_mem_renderComment h.2
    cases harray : head.array <;> simp [Line.render, Header.render, harray, hkey, hcomment, newline_not_mem_gaps]
  | keyValue kv =>
    rw [hline, Line.valid, Bool.and_eq_true, Bool.and_eq_true] at h
    have hkey := Key.newline_not_mem_render h.1.1
    have hvalue := Value.newline_not_mem_render h.1.2
    have hcomment := newline_not_mem_renderComment h.2
    simp [Line.render, KeyValue.render, hkey, hvalue, hcomment, newline_not_mem_gaps]

theorem split_render (hne : d ≠ []) (h : d.Valid) : split ['\n'] d.render = d.map Row.render := by
  have hne' : d.map Row.render ≠ [] := fun hnil => hne (List.map_eq_nil_iff.mp hnil)
  refine split_intercalate hne' fun piece hpiece => ?_
  obtain ⟨row, hrow, rfl⟩ := List.mem_map.mp hpiece
  exact Row.newline_not_mem_render (h.lines row hrow)

theorem valid_of_mem_entriesFrom {header : Option Header} {table : Path} {arrays : Arrays} {n : ℕ} {e : Entry}
    (hlines : ∀ row ∈ d, row.line.valid = true) (hheader : ∀ h, header = some h → h.key.valid = true)
    (he : e ∈ Document.entriesFrom header table arrays n d) :
    e.keyValue.key.valid = true ∧ e.keyValue.value.valid = true ∧ ∀ h, e.header = some h → h.key.valid = true := by
  induction d generalizing header table arrays n with
  | nil => cases he
  | cons row d ih =>
    have hrow := hlines row List.mem_cons_self
    have hrest := fun r hr => hlines r (List.mem_cons_of_mem row hr)
    rw [Document.entriesFrom] at he
    cases hline : row.line with
    | blank g =>
      rw [hline] at he
      exact ih hrest hheader he
    | comment lead text =>
      rw [hline] at he
      exact ih hrest hheader he
    | header h =>
      rw [hline, Line.valid, Bool.and_eq_true] at hrow
      rw [hline] at he
      refine ih hrest (fun h' heq => ?_) he
      rw [← Option.some_inj.mp heq]
      exact hrow.1
    | keyValue kv =>
      rw [hline, Line.valid, Bool.and_eq_true, Bool.and_eq_true] at hrow
      rw [hline] at he
      rcases List.mem_cons.mp he with rfl | he
      · exact ⟨hrow.1.1, hrow.1.2, hheader⟩
      · exact ih hrest hheader he

/-- An entry of an inline table has its value at its path. -/
theorem Entries.mem_leaves {word tail : List Char} {s : Str} (path : Path) : ∀ {entries : Entries},
    entries.Holds word (.string s) tail → (path ++ [.key word], some s.value) ∈ entries.leaves path
  | .nil, h => nomatch h
  | .cons _ key _ _ value _ rest, h => by
    rw [Entries.leaves, List.mem_append]
    rcases h with ⟨rfl, rfl, -⟩ | h
    · exact .inl List.mem_cons_self
    · exact .inr (Entries.mem_leaves path h)

theorem Entries.valid_of_holds {word tail : List Char} {v : Value} : ∀ {entries : Entries},
    entries.valid = true → entries.Holds word v tail → v.valid = true
  | .nil, _, h => nomatch h
  | .cons _ key _ _ value _ rest, hvalid, h => by
    rw [Entries.valid, Bool.and_eq_true, Bool.and_eq_true] at hvalid
    rcases h with ⟨-, rfl, -⟩ | h
    · exact hvalid.1.2
    · exact Entries.valid_of_holds hvalid.2 h

/-- What is behind the key of an entry begins with its value. -/
theorem Entries.tail_of_holds {word tail : List Char} {v : Value} : ∀ {entries : Entries},
    entries.Holds word v tail → ∃ before after rest, tail = gaps before ++ '=' :: (gaps after ++ (v.render ++ rest))
  | .nil, h => nomatch h
  | .cons _ key before after value behind rest, h => by
    rcases h with ⟨-, rfl, htail⟩ | h
    · exact ⟨before, after, _, htail⟩
    · exact Entries.tail_of_holds h

end CodeGraph.Lib.Toml
