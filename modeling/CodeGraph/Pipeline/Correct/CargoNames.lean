import CodeGraph.Lib.Toml
import CodeGraph.Pipeline.CargoNames

/-!
# What the line scan makes of a Cargo manifest

The names that `parse_cargo_names` reads off a manifest without a complaint, beside the values of the TOML text. Each
key/value line adds to the names what it says, where it is passed over, is complained of, or is spelled as the scan
expects it (`Plain`).
-/

namespace CodeGraph.Pipeline.CargoNames

open CodeGraph.Lib (trim trim_concat trim_append Solid)
open CodeGraph.Lib.Toml
open CodeGraph.Pipeline.InFlight (isWhitespace)

variable {d : Document} {e : Entry} {k : Key} {v : Value}

/-! ### What a manifest says -/

/-- A rename: the value of `package` in an entry of a dependencies table. -/
def renameAt (path : Path) : Option (List Char) :=
  match path.reverse with
  | .key word :: .key dep :: .key table :: _ =>
    if word = packageWord ∧ table ∈ depTables then some (dashed dep) else none
  | _ => none

/-- What a value says of the names. -/
def factOf : Path × Option (List Char) → Option Found
  | (_, none) => none
  | (path, some text) =>
    if path = [.key packageWord, .key nameWord] then some (.package (dashed text))
    else if path = [.key libWord, .key nameWord] then some (.lib (dashed text))
    else (renameAt path).map fun dep => .rename dep (dashed text)

def facts (e : Entry) : List Found := e.leaves.filterMap factOf

/-- The names of the package and of the library, and the dependencies with a `package` of their own. -/
structure Reads (d : Document) (names : Names) : Prop where
  package : names.package = (d.text [.key packageWord, .key nameWord]).map dashed
  lib : names.lib = (d.text [.key libWord, .key nameWord]).map dashed
  renames : ∀ dep package, (dep, package) ∈ names.renames ↔
    ∃ path text, (path, some text) ∈ d.leaves ∧ renameAt path = some dep ∧ package = dashed text

/-- What the scan cannot read it says so. -/
def Honest (d : Document) : Prop :=
  (parseCargoNames d.render).unreadable = false → Reads d (parseCargoNames d.render)

/-! ### The lines of a manifest -/

theorem isWhitespace_gaps {g : List Gap} : ∀ c ∈ gaps g, isWhitespace c = true := by
  intro c hc
  obtain ⟨gap, -, rfl⟩ := List.mem_map.mp hc
  cases gap <;> decide

/-- A character that a name begins or ends with. -/
def edge (c : Char) : Bool := bareChar c || c = '"' || c = literalQuote

theorem toNat_of_edge {c : Char} (h : edge c = true) : c.toNat = 34 ∨ c.toNat = 39 ∨ 45 ≤ c.toNat ∧ c.toNat ≤ 57 ∨
    65 ≤ c.toNat ∧ c.toNat ≤ 90 ∨ 95 ≤ c.toNat ∧ c.toNat ≤ 122 := by
  have hle : ∀ a b : Char, a ≤ b ↔ a.toNat ≤ b.toNat := fun a b => Iff.rfl
  rw [edge, Bool.or_eq_true, Bool.or_eq_true, decide_eq_true_eq, decide_eq_true_eq, bareChar, decide_eq_true_eq] at h
  simp only [hle] at h
  rcases h with ((h | h | h | rfl | rfl) | rfl) | rfl
  · have : 'a'.toNat = 97 ∧ 'z'.toNat = 122 := ⟨rfl, rfl⟩
    omega
  · have : 'A'.toNat = 65 ∧ 'Z'.toNat = 90 := ⟨rfl, rfl⟩
    omega
  · have : '0'.toNat = 48 ∧ '9'.toNat = 57 := ⟨rfl, rfl⟩
    omega
  all_goals decide

theorem isWhitespace_edge {c : Char} (h : edge c = true) : isWhitespace c = false := by
  have hrange := toNat_of_edge h
  unfold isWhitespace
  simp only [Bool.or_eq_false_iff, Bool.and_eq_false_iff, decide_eq_false_iff_not, beq_eq_false_iff_ne]
  omega

theorem ne_of_edge {c d : Char} (h : edge c = true) (hd : edge d = false) : c ≠ d := by
  rintro rfl
  rw [h] at hd
  cases hd

theorem edge_bare {text : List Char} (h : (Name.bare text).valid = true) {c : Char} (hc : c ∈ text) :
    bareChar c = true := by
  have hall : text ≠ [] ∧ text.all bareChar = true := of_decide_eq_true h
  exact List.all_eq_true.mp hall.2 c hc

/-- A test that fails at the ends of a name. -/
theorem solid_str {p : Char → Bool} (hp : ∀ c, edge c = true → p c = false) (s : Str) : Solid p s.render := by
  have hdouble : p '"' = false := hp _ (by decide)
  have hsingle : p literalQuote = false := hp _ (by decide)
  cases s with
  | basic pieces => exact ⟨⟨_, _, rfl, hdouble⟩, ⟨'"' :: pieces.flatMap Piece.render, '"', rfl, hdouble⟩⟩
  | literal text => exact ⟨⟨_, _, rfl, hsingle⟩, ⟨literalQuote :: text, literalQuote, rfl, hsingle⟩⟩
  | basicBlock pieces =>
    refine ⟨⟨_, _, rfl, hdouble⟩, ⟨'"' :: '"' :: '"' :: (pieces.flatMap Piece.render ++ ['"', '"']), '"', ?_, hdouble⟩⟩
    simp [Str.render]
  | literalBlock text =>
    refine ⟨⟨_, _, rfl, hsingle⟩,
      ⟨literalQuote :: literalQuote :: literalQuote :: (text ++ [literalQuote, literalQuote]), literalQuote, ?_,
        hsingle⟩⟩
    simp [Str.render]

theorem solid_name {p : Char → Bool} (hp : ∀ c, edge c = true → p c = false) {n : Name} (h : n.valid = true) :
    Solid p n.render := by
  cases n with
  | quoted s => exact solid_str hp s
  | bare text =>
    have hedge : ∀ c ∈ text, p c = false := fun c hc => hp c (by rw [edge, edge_bare h hc]; rfl)
    have hne : text ≠ [] := (of_decide_eq_true h : text ≠ [] ∧ text.all bareChar = true).1
    constructor
    · exact ⟨text.head hne, text.tail, (List.cons_head_tail hne).symm, hedge _ (List.head_mem hne)⟩
    · exact ⟨text.dropLast, text.getLast hne, (List.dropLast_append_getLast hne).symm, hedge _ (List.getLast_mem hne)⟩

theorem solid_key {p : Char → Bool} (hp : ∀ c, edge c = true → p c = false) (h : k.valid = true) :
    Solid p k.render := by
  unfold Key.valid at h
  rw [Bool.and_eq_true] at h
  obtain ⟨hfirst, hothers⟩ := h
  unfold Key.render Key.renderOthers
  generalize k.first = first at hfirst
  generalize k.others = others at hothers
  induction others using List.reverseRecOn with
  | nil =>
    rw [List.flatMap_nil, List.append_nil]
    exact solid_name hp hfirst
  | append_singleton others o ih =>
    rw [List.all_append, Bool.and_eq_true] at hothers
    obtain ⟨hothers, ho⟩ := hothers
    have hname : o.2.2.valid = true := by simpa using ho
    have hgo := (ih hothers).append (solid_name hp hname) (gaps o.1 ++ '.' :: gaps o.2.1)
    have hsame : first.render ++ (others ++ [o]).flatMap (fun o => gaps o.1 ++ '.' :: (gaps o.2.1 ++ o.2.2.render)) =
        first.render ++ others.flatMap (fun o => gaps o.1 ++ '.' :: (gaps o.2.1 ++ o.2.2.render)) ++
          (gaps o.1 ++ '.' :: gaps o.2.1 ++ o.2.2.render) := by
      simp
    rw [hsame]
    exact hgo

theorem solid_value (h : v.valid = true) : Solid isWhitespace v.render := by
  cases v with
  | string s => exact solid_str (fun c => isWhitespace_edge) s
  | other text =>
    have hother : '\n' ∉ text ∧ (text = ['t', 'r', 'u', 'e'] ∨ text = ['f', 'a', 'l', 's', 'e'] ∨
      text.head? = some '[' ∧ text.getLast? = some ']') := of_decide_eq_true h
    rcases hother.2 with rfl | rfl | ⟨hfirst, hlast⟩
    · exact ⟨⟨'t', _, rfl, by decide⟩, ⟨['t', 'r', 'u'], 'e', rfl, by decide⟩⟩
    · exact ⟨⟨'f', _, rfl, by decide⟩, ⟨['f', 'a', 'l', 's'], 'e', rfl, by decide⟩⟩
    · obtain ⟨rest, hrest⟩ := List.head?_eq_some_iff.mp hfirst
      obtain ⟨front, hfront⟩ := List.getLast?_eq_some_iff.mp hlast
      exact ⟨⟨'[', rest, hrest, by decide⟩, ⟨front, ']', hfront, by decide⟩⟩
  | table entries close =>
    refine ⟨⟨_, _, rfl, by decide⟩, ⟨'{' :: (entries.render ++ gaps close), '}', ?_, by decide⟩⟩
    simp [Value.render]

/-- The line that the loop reads. -/
def lineOf (e : Entry) : List Char := trim isWhitespace e.keyValue.render

/-- The table that the scan takes it to be in. -/
def tableText (e : Entry) : Option (List Char) := e.header.map fun h => tableOf (trim isWhitespace h.render)

def found (e : Entry) : Option Found := foundIn (tableText e) (lineOf e)

theorem trim_carriageReturn (s : List Char) (cr : Bool) :
    trim isWhitespace (s ++ carriageReturn cr) = trim isWhitespace s := by
  cases cr with
  | false => rw [show carriageReturn false = [] from rfl, List.append_nil]
  | true => exact trim_concat (by decide) s

theorem readLine_congr {state : Option (List Char) × Names} {a b : List Char}
    (h : trim isWhitespace a = trim isWhitespace b) : readLine state a = readLine state b := by
  rw [readLine, readLine, h]

/-- The loop over the lines is one over what stands between the newlines. -/
theorem foldl_lines (text : List Char) (state : Option (List Char) × Names) :
    (lines text).foldl readLine state = (Lib.split ['\n'] text).foldl readLine state := by
  -- a carriage return at the end of a line is trimmed by the reader anyway
  have hstrip : ∀ (pieces : List (List Char)) (state : Option (List Char) × Names),
      (pieces.map fun piece => if piece.getLast? = some '\r' then piece.dropLast else piece).foldl readLine state =
        pieces.foldl readLine state := by
    intro pieces state
    rw [List.foldl_map]
    congr 1
    funext state piece
    split_ifs with hlast
    · obtain ⟨front, rfl⟩ := List.getLast?_eq_some_iff.mp hlast
      rw [List.dropLast_concat]
      exact readLine_congr (trim_concat (by decide) front).symm
    · rfl
  unfold lines
  dsimp only
  generalize Lib.split ['\n'] text = pieces
  rw [List.foldl_append, hstrip]
  -- an empty last piece is no line, and reads as nothing
  cases hlast : pieces.getLast? with
  | none =>
    rw [List.getLast?_eq_none_iff.mp hlast]
    rfl
  | some last =>
    obtain ⟨front, rfl⟩ := List.getLast?_eq_some_iff.mp hlast
    rw [List.dropLast_concat, List.foldl_append]
    by_cases hnil : last = []
    · rw [hnil]
      rfl
    · have hsome : (some last).filter (!·.isEmpty) = some last := by
        rw [Option.filter_some, if_pos (by simpa using hnil)]
      rw [hsome]
      rfl

/-- What the loop reads begins with the key, and goes on up to the value at least. -/
theorem lineOf_eq (hkey : e.keyValue.key.valid = true) (hvalue : e.keyValue.value.valid = true) :
    ∃ tail, lineOf e = e.keyValue.key.render ++ (gaps e.keyValue.before ++ '=' :: (gaps e.keyValue.after ++
      (e.keyValue.value.render ++ tail))) := by
  have hsolid := (solid_key (fun c => isWhitespace_edge) hkey).append (solid_value hvalue)
    (gaps e.keyValue.before ++ '=' :: gaps e.keyValue.after)
  refine ⟨(gaps e.keyValue.behind ++ renderComment e.keyValue.comment).rdropWhile isWhitespace, ?_⟩
  have htrim := trim_append (isWhitespace_gaps (g := e.keyValue.lead)) hsolid
    (gaps e.keyValue.behind ++ renderComment e.keyValue.comment)
  rw [lineOf, KeyValue.render]
  simp only [List.append_assoc, List.cons_append] at htrim ⊢
  exact htrim

theorem readLine_keyValue {state : Option (List Char) × Names} (hkey : e.keyValue.key.valid = true)
    (hvalue : e.keyValue.value.valid = true) :
    readLine state e.keyValue.render = (state.1, ((foundIn state.1 (lineOf e)).map state.2.add).getD state.2) := by
  obtain ⟨tail, hline⟩ := lineOf_eq hkey hvalue
  obtain ⟨c, rest, hrender, hc⟩ := (@solid_key _ (fun c => !edge c) (fun c hc => by rw [hc]; rfl) hkey).first
  rw [Bool.not_eq_false'] at hc
  rw [hrender] at hline
  have hhead : (lineOf e).head? = some c := by
    rw [hline]
    rfl
  have hne : lineOf e ≠ [] := by
    rw [hline]
    exact List.cons_ne_nil _ _
  have hcomment : (lineOf e).head? ≠ some '#' := by
    rw [hhead]
    exact fun heq => ne_of_edge hc (by decide) (Option.some_inj.mp heq)
  have hheader : (lineOf e).head? ≠ some '[' := by
    rw [hhead]
    exact fun heq => ne_of_edge hc (by decide) (Option.some_inj.mp heq)
  show (if lineOf e = [] ∨ (lineOf e).head? = some '#' then state
    else if (lineOf e).head? = some '[' then _ else _) = _
  rw [if_neg (not_or.mpr ⟨hne, hcomment⟩), if_neg hheader]
  rfl

def opening (h : Header) : List Char := if h.array then ['[', '['] else ['[']

def closing (h : Header) : List Char := if h.array then [']', ']'] else [']']

theorem trim_header (h : Header) : trim isWhitespace h.render =
    opening h ++ (gaps h.before ++ (h.key.render ++ gaps h.after) ++ closing h) ++
      (gaps h.behind ++ renderComment h.comment).rdropWhile isWhitespace := by
  have hopen : Solid isWhitespace (opening h) := by
    unfold opening
    cases h.array
    · exact ⟨⟨'[', [], rfl, by decide⟩, ⟨[], '[', rfl, by decide⟩⟩
    · exact ⟨⟨'[', ['['], rfl, by decide⟩, ⟨['['], '[', rfl, by decide⟩⟩
  have hclose : Solid isWhitespace (closing h) := by
    unfold closing
    cases h.array
    · exact ⟨⟨']', [], rfl, by decide⟩, ⟨[], ']', rfl, by decide⟩⟩
    · exact ⟨⟨']', [']'], rfl, by decide⟩, ⟨[']'], ']', rfl, by decide⟩⟩
  have htrim := trim_append (isWhitespace_gaps (g := h.lead))
    (hopen.append hclose (gaps h.before ++ (h.key.render ++ gaps h.after))) (gaps h.behind ++ renderComment h.comment)
  rw [Header.render]
  simp only [List.append_assoc] at htrim ⊢
  exact htrim

theorem readLine_header {state : Option (List Char) × Names} (h : Header) :
    readLine state h.render = (some (tableOf (trim isWhitespace h.render)), state.2) := by
  have hhead : (trim isWhitespace h.render).head? = some '[' := by
    rw [trim_header, opening]
    cases h.array <;> rfl
  have hne : trim isWhitespace h.render ≠ [] := by
    intro hnil
    rw [hnil] at hhead
    cases hhead
  have hcomment : (trim isWhitespace h.render).head? ≠ some '#' := by
    rw [hhead]
    decide
  show (if trim isWhitespace h.render = [] ∨ (trim isWhitespace h.render).head? = some '#' then state
    else if (trim isWhitespace h.render).head? = some '[' then _ else _) = _
  rw [if_neg (not_or.mpr ⟨hne, hcomment⟩), if_pos hhead]

theorem readLine_blank {state : Option (List Char) × Names} (g : List Gap) : readLine state (gaps g) = state :=
  if_pos (.inl (Lib.trim_eq_nil_iff.mpr isWhitespace_gaps))

theorem readLine_comment {state : Option (List Char) × Names} (g : List Gap) (text : List Char) :
    readLine state (gaps g ++ '#' :: text) = state := by
  have hhash : Solid isWhitespace ['#'] := ⟨⟨'#', [], rfl, by decide⟩, ⟨[], '#', rfl, by decide⟩⟩
  have htrim : trim isWhitespace (gaps g ++ '#' :: text) = '#' :: text.rdropWhile isWhitespace :=
    trim_append isWhitespace_gaps hhash text
  exact if_pos (.inr (by rw [htrim]; rfl))

/-- The key/value lines add to the names, one after the other. -/
theorem foldl_rows (hlines : ∀ row ∈ d, row.line.valid = true) (header : Option Header) (table : Path)
    (arrays : Arrays) (n : ℕ) (names : Names) :
    ((d.map Row.render).foldl readLine (header.map fun h => tableOf (trim isWhitespace h.render), names)).2 =
      ((Document.entriesFrom header table arrays n d).filterMap found).foldl Names.add names := by
  -- the induction is on the rows; only a header changes the table, and only a key adds a name
  induction d generalizing header table arrays n names with
  | nil => rfl
  | cons row d ih =>
    have hrow := hlines row List.mem_cons_self
    have hrest := fun r hr => hlines r (List.mem_cons_of_mem row hr)
    rw [List.map_cons, List.foldl_cons, Row.render, readLine_congr (trim_carriageReturn _ _), Document.entriesFrom]
    cases hline : row.line with
    | blank g =>
      rw [Line.render, readLine_blank]
      exact ih hrest header table arrays n names
    | comment lead text =>
      rw [Line.render, readLine_comment]
      exact ih hrest header table arrays n names
    | header h =>
      rw [Line.render, readLine_header]
      exact ih hrest (some h) _ _ _ names
    | keyValue kv =>
      rw [hline, Line.valid, Bool.and_eq_true, Bool.and_eq_true] at hrow
      have hread := @readLine_keyValue ⟨header, table, kv⟩
        (header.map fun h => tableOf (trim isWhitespace h.render), names) hrow.1.1 hrow.1.2
      rw [Line.render]
      dsimp only at hread ⊢
      rw [hread, ih hrest, List.filterMap_cons]
      have hfound : found ⟨header, table, kv⟩ =
        foundIn (header.map fun h => tableOf (trim isWhitespace h.render)) (lineOf ⟨header, table, kv⟩) := rfl
      rw [← hfound]
      cases found ⟨header, table, kv⟩ <;> rfl

theorem parseCargoNames_render (h : d.Valid) :
    parseCargoNames d.render = (d.entries.filterMap found).foldl Names.add .default := by
  by_cases hnil : d = []
  · rw [hnil]
    rfl
  · rw [parseCargoNames, foldl_lines, split_render hnil h]
    exact foldl_rows h.lines none [] [] 0 .default

/-! ### Lines that are read for what they say -/

/-- The scan complains of the line, or makes of it what it says. -/
def Faithful (e : Entry) : Prop := found e = some .unreadable ∨ ∀ f, f ∈ facts e ↔ found e = some f

theorem unreadable_foldl (fs : List Found) (names : Names) :
    (fs.foldl Names.add names).unreadable = true ↔ names.unreadable = true ∨ .unreadable ∈ fs := by
  induction fs generalizing names with
  | nil => simp
  | cons f fs ih =>
    rw [List.foldl_cons, ih, List.mem_cons]
    cases f <;> simp [Names.add]

theorem renames_foldl (fs : List Found) (names : Names) (dep package : List Char) :
    (dep, package) ∈ (fs.foldl Names.add names).renames ↔
      (dep, package) ∈ names.renames ∨ .rename dep package ∈ fs := by
  induction fs generalizing names with
  | nil => simp
  | cons f fs ih =>
    rw [List.foldl_cons, ih, List.mem_cons]
    cases f <;> simp [Names.add, or_assoc]

/-- A name that the last line to give it sets. -/
theorem name_foldl {get : Names → Option (List Char)} {mk : List Char → Found}
    (hset : ∀ (names : Names) w, get (names.add (mk w)) = some w)
    (hkeep : ∀ (names : Names) f, (∀ w, f ≠ mk w) → get (names.add f) = get names)
    (fs : List Found) (names : Names) :
    (∃ w, mk w ∈ fs ∧ get (fs.foldl Names.add names) = some w) ∨
      (∀ w, mk w ∉ fs) ∧ get (fs.foldl Names.add names) = get names := by
  induction fs generalizing names with
  | nil => exact .inr ⟨fun w => List.not_mem_nil, rfl⟩
  | cons f fs ih =>
    rw [List.foldl_cons]
    rcases ih (names.add f) with ⟨w, hw, hget⟩ | ⟨hnone, hget⟩
    · exact .inl ⟨w, List.mem_cons_of_mem f hw, hget⟩
    · by_cases hf : ∃ w, f = mk w
      · obtain ⟨w, rfl⟩ := hf
        exact .inl ⟨w, List.mem_cons_self, hget.trans (hset names w)⟩
      · have hne : ∀ w, f ≠ mk w := fun w heq => hf ⟨w, heq⟩
        refine .inr ⟨fun w hw => ?_, hget.trans (hkeep names f hne)⟩
        rcases List.mem_cons.mp hw with heq | hw
        · exact hne w heq.symm
        · exact hnone w hw

/-- A name that one value of the manifest gives. -/
theorem name_eq {get : Names → Option (List Char)} {mk : List Char → Found} {path : Path} {fs : List Found}
    (hvalid : d.Valid) (hset : ∀ (names : Names) w, get (names.add (mk w)) = some w)
    (hkeep : ∀ (names : Names) f, (∀ w, f ≠ mk w) → get (names.add f) = get names) (hnone : get .default = none)
    (hfs : ∀ w, mk w ∈ fs ↔ ∃ text, (path, some text) ∈ d.leaves ∧ w = dashed text) :
    get (fs.foldl Names.add .default) = (d.text path).map dashed := by
  cases htext : d.text path with
  | none =>
    rcases name_foldl hset hkeep fs .default with ⟨w, hw, -⟩ | ⟨-, hget⟩
    · obtain ⟨text, hleaf, -⟩ := (hfs w).mp hw
      rw [(Document.text_eq_some hvalid).mpr hleaf] at htext
      cases htext
    · exact hget.trans hnone
  | some text =>
    have hleaf := (Document.text_eq_some hvalid).mp htext
    rcases name_foldl hset hkeep fs .default with ⟨w, hw, hget⟩ | ⟨hno, -⟩
    · obtain ⟨text', hleaf', rfl⟩ := (hfs w).mp hw
      rw [(Document.text_eq_some hvalid).mpr hleaf', Option.some_inj] at htext
      rw [hget, htext]
      rfl
    · exact absurd ((hfs _).mpr ⟨text, hleaf, rfl⟩) (hno _)

theorem factOf_eq_package {leaf : Path × Option (List Char)} {w : List Char} : factOf leaf = some (.package w) ↔
    ∃ text, leaf = ([.key packageWord, .key nameWord], some text) ∧ w = dashed text := by
  obtain ⟨path, value⟩ := leaf
  cases value with
  | none => simp [factOf]
  | some text =>
    rw [factOf]
    split_ifs with hpackage hlib
    · simp [hpackage, eq_comm]
    · simp [hpackage]
    · simp [hpackage]

theorem factOf_eq_lib {leaf : Path × Option (List Char)} {w : List Char} : factOf leaf = some (.lib w) ↔
    ∃ text, leaf = ([.key libWord, .key nameWord], some text) ∧ w = dashed text := by
  obtain ⟨path, value⟩ := leaf
  cases value with
  | none => simp [factOf]
  | some text =>
    rw [factOf]
    split_ifs with hpackage hlib
    · rw [hpackage]
      simp [packageWord, libWord]
    · simp [hlib, eq_comm]
    · simp [hlib]

theorem factOf_eq_rename {leaf : Path × Option (List Char)} {dep package : List Char} :
    factOf leaf = some (.rename dep package) ↔
      ∃ path text, leaf = (path, some text) ∧ renameAt path = some dep ∧ package = dashed text := by
  obtain ⟨path, value⟩ := leaf
  cases value with
  | none => simp [factOf]
  | some text =>
    rw [factOf]
    split_ifs with hpackage hlib
    · simp [hpackage, renameAt]
    · simp [hlib, renameAt]
    · simp [eq_comm]

theorem honest_of_faithful (hvalid : d.Valid) (h : ∀ e ∈ d.entries, Faithful e) : Honest d := by
  unfold Honest
  rw [parseCargoNames_render hvalid]
  intro hread
  have hclear : Found.unreadable ∉ d.entries.filterMap found := by
    intro hmem
    rw [(unreadable_foldl _ _).mpr (.inr hmem)] at hread
    cases hread
  -- what is found is what the values say
  have hall : ∀ f, f ∈ d.entries.filterMap found ↔ ∃ leaf ∈ d.leaves, factOf leaf = some f := by
    intro f
    have hentry : ∀ e ∈ d.entries, (found e = some f ↔ f ∈ facts e) := by
      intro e he
      rcases h e he with hflag | hsame
      · exact absurd (List.mem_filterMap.mpr ⟨e, he, hflag⟩) hclear
      · exact (hsame f).symm
    rw [List.mem_filterMap]
    constructor
    · rintro ⟨e, he, hfound⟩
      obtain ⟨leaf, hleaf, hfact⟩ := List.mem_filterMap.mp ((hentry e he).mp hfound)
      exact ⟨leaf, List.mem_flatMap.mpr ⟨e, he, hleaf⟩, hfact⟩
    · rintro ⟨leaf, hleaf, hfact⟩
      obtain ⟨e, he, hin⟩ := List.mem_flatMap.mp hleaf
      exact ⟨e, he, (hentry e he).mpr (List.mem_filterMap.mpr ⟨leaf, hin, hfact⟩)⟩
  constructor
  · refine @name_eq d Names.package .package _ _ hvalid (fun _ _ => rfl) (fun names f hf => ?_) rfl fun w => ?_
    · cases f with
      | package w => exact absurd rfl (hf w)
      | _ => rfl
    · rw [hall]
      simp only [factOf_eq_package]
      grind
  · refine @name_eq d Names.lib .lib _ _ hvalid (fun _ _ => rfl) (fun names f hf => ?_) rfl fun w => ?_
    · cases f with
      | lib w => exact absurd rfl (hf w)
      | _ => rfl
    · rw [hall]
      simp only [factOf_eq_lib]
      grind
  · intro dep package
    rw [renames_foldl, hall]
    simp only [factOf_eq_rename]
    have hempty : (dep, package) ∉ Names.default.renames := List.not_mem_nil
    grind

/-! ### Plain lines -/

/-- The value is no basic string with escapes. -/
def Unescaped (v : Value) : Prop := ∀ pieces, v = .string (.basic pieces) → ∀ p ∈ pieces, ∃ c, p = .plain c

/-- The scan looks for nothing on the line. -/
def Passes (e : Entry) : Prop :=
  match tableText e with
  | none => ¬topLevelName (keyOf (lineOf e))
  | some t => sought t (lineOf e) = none

/-- The scan looks for a literal on the line, and there is none, or for a name before any header. -/
def Flags (e : Entry) : Prop :=
  match tableText e with
  | none => topLevelName (keyOf (lineOf e))
  | some t => ∃ look, sought t (lineOf e) = some look ∧ literal look.2 = none

/-- The kinds of key/value lines that the scan reads. -/
inductive Plain (e : Entry) : Prop
  | passed (hfacts : facts e = []) (hpasses : Passes e)
  | flagged (hflags : Flags e)
  | name {h : Header} {t : List Char} (hheader : e.header = some h) (hcomment : h.comment = none)
      (hkey : h.key = ⟨.bare t, []⟩) (ht : t = packageWord ∨ t = libWord) (htable : e.table = h.key.path)
      (hname : e.keyValue.key = ⟨.bare nameWord, []⟩) (hvalue : Unescaped e.keyValue.value)
  | inline {h : Header} {t dep tail more : List Char} {entries : Entries} {close : List Gap} {v : Value}
      (hheader : e.header = some h) (hcomment : h.comment = none) (hkey : h.key.EndsIn t) (ht : t ∈ depTables)
      (htable : e.table = h.key.path) (hdep : e.keyValue.key = ⟨.bare dep, []⟩)
      (hentries : e.keyValue.value = .table entries close) (hown : entries.Holds packageWord v tail)
      (hfirst : behindPackage none ((lineOf e).dropWhile (· ≠ '{')) = some (tail ++ more)) (hvalue : Unescaped v)
      (honly : (facts e).length ≤ 1)
  | entry {h : Header} {k : Key} {t dep : List Char} {g : List Gap} (hheader : e.header = some h)
      (hcomment : h.comment = none) (hends : k.EndsIn t) (ht : t ∈ depTables) (hkey : h.key = k.snoc g (.bare dep))
      (hdep : dep ∉ depTables) (htable : e.table = h.key.path) (hpackage : e.keyValue.key = ⟨.bare packageWord, []⟩)
      (hvalue : Unescaped e.keyValue.value)

theorem trimStart_gaps {g : List Gap} {a : List Char} (ha : Solid isWhitespace a) (b : List Char) :
    trimStart (gaps g ++ (a ++ b)) = a ++ b := by
  obtain ⟨c, rest, rfl, hc⟩ := ha.first
  rw [trimStart, List.dropWhile_append_of_pos isWhitespace_gaps, List.cons_append,
    List.dropWhile_cons_of_neg (by rw [hc]; decide)]

theorem render_plain {pieces : List Piece} (h : ∀ p ∈ pieces, ∃ c, p = .plain c) :
    pieces.flatMap Piece.render = pieces.filterMap Piece.value := by
  induction pieces with
  | nil => rfl
  | cons p pieces ih =>
    obtain ⟨c, rfl⟩ := h p List.mem_cons_self
    rw [List.flatMap_cons, ih fun q hq => h q (List.mem_cons_of_mem _ hq)]
    rfl

theorem takeWhile_quote {quote : Char} {text : List Char} (h : quote ∉ text) (rest : List Char) :
    (text ++ quote :: rest).takeWhile (fun c => decide (c ≠ quote)) = text := by
  rw [List.takeWhile_append_of_pos, List.takeWhile_cons_of_neg, List.append_nil]
  · simp
  · intro c hc
    rw [decide_eq_true_eq]
    rintro rfl
    exact h hc

theorem literal_eq {rest after text : List Char} {quote : Char} (h : trimStart rest = '=' :: after)
    (h' : trimStart after = quote :: text) : literal rest =
      if quote ∉ quoteMarks then none
      else if text.takeWhile (· ≠ quote) = [] then none else some (dashed (text.takeWhile (· ≠ quote))) := by
  unfold literal
  simp only [h, h']

/-- The scan takes a value for a literal where it is a string on its own, and reads it rightly. -/
theorem literal_value (hv : v.valid = true) (hplain : Unescaped v) (g g' : List Gap) (tail : List Char) :
    literal (gaps g ++ '=' :: (gaps g' ++ (v.render ++ tail))) = none ∨
      ∃ s, v = .string s ∧ literal (gaps g ++ '=' :: (gaps g' ++ (v.render ++ tail))) = some (dashed s.value) := by
  have hequals : Solid isWhitespace ['='] := ⟨⟨'=', [], rfl, by decide⟩, ⟨[], '=', rfl, by decide⟩⟩
  have hstart : trimStart (gaps g ++ '=' :: (gaps g' ++ (v.render ++ tail))) =
      '=' :: (gaps g' ++ (v.render ++ tail)) := trimStart_gaps hequals _
  -- a value that begins with a quote mark is read as far as the next one
  have hread : ∀ {quote : Char} {text rest : List Char}, quote ∈ quoteMarks → quote ∉ text →
      v.render ++ tail = quote :: (text ++ quote :: rest) →
      literal (gaps g ++ '=' :: (gaps g' ++ (v.render ++ tail))) = if text = [] then none else some (dashed text) := by
    intro quote text rest hquote htext heq
    rw [literal_eq hstart ((trimStart_gaps (solid_value hv) tail).trans heq), if_neg (not_not.mpr hquote),
      takeWhile_quote htext]
  -- any other value is no literal
  have hnone : ∀ {c : Char} {rest : List Char}, c ∉ quoteMarks → v.render ++ tail = c :: rest →
      literal (gaps g ++ '=' :: (gaps g' ++ (v.render ++ tail))) = none := by
    intro c rest hc heq
    rw [literal_eq hstart ((trimStart_gaps (solid_value hv) tail).trans heq), if_pos hc]
  cases v with
  | string s =>
    cases s with
    | basic pieces =>
      have hpieces := hplain pieces rfl
      have hquote : '"' ∉ pieces.flatMap Piece.render := by
        intro hmem
        obtain ⟨p, hp, hin⟩ := List.mem_flatMap.mp hmem
        obtain ⟨c, rfl⟩ := hpieces p hp
        have hc : c ≠ '"' ∧ c ≠ '\\' ∧ c ≠ '\n' :=
          of_decide_eq_true (List.all_eq_true.mp (show pieces.all Piece.valid = true from hv) _ hp)
        exact hc.1 (List.mem_singleton.mp hin).symm
      have hspell : Value.render (.string (.basic pieces)) ++ tail =
          '"' :: (pieces.flatMap Piece.render ++ '"' :: tail) := by
        simp [Value.render, Str.render]
      rw [hread (by decide) hquote hspell, render_plain hpieces]
      split_ifs with hnil
      · exact .inl rfl
      · exact .inr ⟨_, rfl, rfl⟩
    | literal text =>
      have htext : literalQuote ∉ text ∧ '\n' ∉ text := of_decide_eq_true hv
      have hspell : Value.render (.string (.literal text)) ++ tail =
          literalQuote :: (text ++ literalQuote :: tail) := by
        simp [Value.render, Str.render]
      rw [hread (by decide) htext.1 hspell]
      split_ifs with hnil
      · exact .inl rfl
      · exact .inr ⟨_, rfl, rfl⟩
    | basicBlock pieces =>
      have hblock := @hread '"' [] ('"' :: (pieces.flatMap Piece.render ++ ['"', '"', '"'] ++ tail)) (by decide)
        List.not_mem_nil rfl
      exact .inl (hblock.trans (if_pos rfl))
    | literalBlock text =>
      have hblock := @hread literalQuote []
        (literalQuote :: (text ++ [literalQuote, literalQuote, literalQuote] ++ tail)) (by decide) List.not_mem_nil rfl
      exact .inl (hblock.trans (if_pos rfl))
  | other text =>
    have hother : '\n' ∉ text ∧ (text = ['t', 'r', 'u', 'e'] ∨ text = ['f', 'a', 'l', 's', 'e'] ∨
      text.head? = some '[' ∧ text.getLast? = some ']') := of_decide_eq_true hv
    rcases hother.2 with rfl | rfl | ⟨hfirst, -⟩
    · exact .inl (@hnone 't' _ (by decide) rfl)
    · exact .inl (@hnone 'f' _ (by decide) rfl)
    · -- an array begins with its bracket
      obtain ⟨rest, rfl⟩ := List.head?_eq_some_iff.mp hfirst
      exact .inl (@hnone '[' _ (by decide) rfl)
  | table entries close => exact .inl (@hnone '{' _ (by decide) rfl)

/-! ### Headers and keys -/

/-- The text of a header without a comment is its key. -/
theorem tableOf_header {h : Header} (hkey : h.key.valid = true) (hcomment : h.comment = none) :
    tableOf (trim isWhitespace h.render) = h.key.render := by
  have hend : ∀ g : List Gap, (gaps g).rdropWhile isWhitespace = [] := fun g =>
    List.rdropWhile_eq_nil_iff.mpr isWhitespace_gaps
  have hgap : ∀ {g : List Gap}, ∀ c ∈ gaps g, isBracket c = false := by
    intro g c hc
    obtain ⟨gap, -, rfl⟩ := List.mem_map.mp hc
    cases gap <;> decide
  have hedge : ∀ c, edge c = true → isBracket c = false := by
    intro c hc
    rw [isBracket, decide_eq_false (ne_of_edge hc (by decide)), decide_eq_false (ne_of_edge hc (by decide))]
    rfl
  have hmiddle := (solid_key hedge hkey).between (hgap (g := h.before)) (hgap (g := h.after))
  have hopen : ∀ c ∈ opening h, isBracket c = true := by
    intro c hc
    have hbracket : c = '[' := by cases harray : h.array <;> simpa [opening, harray] using hc
    rw [hbracket]
    rfl
  have hclose : (closing h).rdropWhile isBracket = [] := by
    unfold closing
    cases h.array <;> decide
  rw [trim_header, hcomment, renderComment, List.append_nil, hend, List.append_nil, tableOf,
    trim_append hopen hmiddle, hclose, List.append_nil,
    trim_append isWhitespace_gaps (solid_key (fun c => isWhitespace_edge) hkey), hend, List.append_nil]

theorem lastPart_append {w : List Char} (hw : '.' ∉ w) (a : List Char) : lastPart (a ++ '.' :: w) = w := by
  have hpos : ∀ c ∈ w.reverse, decide (c ≠ '.') = true := by
    intro c hc
    rw [decide_eq_true_eq]
    rintro rfl
    exact hw (List.mem_reverse.mp hc)
  rw [lastPart, List.rtakeWhile, List.reverse_append, List.reverse_cons, List.append_assoc,
    List.takeWhile_append_of_pos hpos]
  simp

theorem lastPart_self {w : List Char} (hw : '.' ∉ w) : lastPart w = w := by
  rw [lastPart, List.rtakeWhile_eq_self_iff]
  intro c hc
  rw [decide_eq_true_eq]
  rintro rfl
  exact hw hc

theorem rsplitOnce_append {w : List Char} (hw : '.' ∉ w) (a : List Char) :
    rsplitOnce (a ++ '.' :: w) = some (a, w) := by
  have hpos : ∀ c ∈ w.reverse, decide (c ≠ '.') = true := by
    intro c hc
    rw [decide_eq_true_eq]
    rintro rfl
    exact hw (List.mem_reverse.mp hc)
  have hfront : (a ++ '.' :: w).rdropWhile (fun c => decide (c ≠ '.')) = a ++ ['.'] := by
    rw [List.rdropWhile, List.reverse_append, List.reverse_cons, List.append_assoc, List.dropWhile_append_of_pos hpos]
    simp
  rw [rsplitOnce, if_pos (by simp), lastPart_append hw, hfront, List.dropLast_concat]

theorem dot_not_mem_depTables {t : List Char} (ht : t ∈ depTables) : '.' ∉ t := by
  have hall : depTables.all (fun t => '.' ∉ t) = true := by decide
  exact of_decide_eq_true (List.all_eq_true.mp hall t ht)

theorem lastPart_endsIn {t : List Char} (hk : k.EndsIn t) (ht : t ∈ depTables) : lastPart k.render = t := by
  have hdot := dot_not_mem_depTables ht
  rw [Key.render]
  rcases hk with ⟨hfirst, hothers⟩ | ⟨others, g, hothers⟩
  · rw [hfirst, hothers]
    show lastPart (t ++ []) = t
    rw [List.append_nil, lastPart_self hdot]
  · have hsame : k.first.render ++ Key.renderOthers (others ++ [(g, [], .bare t)]) =
        k.first.render ++ (Key.renderOthers others ++ gaps g) ++ '.' :: t := by
      simp [Key.renderOthers, Name.render, gaps]
    rw [hothers, hsame, lastPart_append hdot]

theorem path_endsIn {t : List Char} (hk : k.EndsIn t) : ∃ front, k.path = front ++ [.key t] := by
  rw [Key.path, Key.names]
  rcases hk with ⟨hfirst, hothers⟩ | ⟨others, g, hothers⟩
  · rw [hfirst, hothers]
    exact ⟨[], rfl⟩
  · rw [hothers]
    refine ⟨.key k.first.value :: others.map fun o => .key o.2.2.value, ?_⟩
    simp [Name.value]

theorem isDeps_endsIn {t : List Char} (hk : k.EndsIn t) (ht : t ∈ depTables) : isDeps k.render = true := by
  rw [isDeps, lastPart_endsIn hk ht]
  exact decide_eq_true ht

/-- What the scan sees of a line with a bare key. -/
theorem lineOf_bare {w : List Char} (hkey : e.keyValue.key = ⟨.bare w, []⟩) (hvalid : e.keyValue.key.valid = true)
    (hvalue : e.keyValue.value.valid = true) : keyOf (lineOf e) = w ∧ ∃ tail, lineOf e = w ++
      (gaps e.keyValue.before ++ '=' :: (gaps e.keyValue.after ++ (e.keyValue.value.render ++ tail))) := by
  obtain ⟨tail, hline⟩ := lineOf_eq hvalid hvalue
  rw [hkey] at hline hvalid
  have hrender : Key.render ⟨.bare w, []⟩ = w := List.append_nil w
  rw [hrender] at hline
  have hw : (Name.bare w).valid = true := by
    unfold Key.valid at hvalid
    rw [Bool.and_eq_true] at hvalid
    exact hvalid.1
  refine ⟨?_, tail, hline⟩
  have hpos : ∀ c ∈ w, (!(decide (c = '=') || isWhitespace c)) = true := by
    intro c hc
    have hedge : edge c = true := by
      rw [edge, edge_bare hw hc]
      rfl
    rw [isWhitespace_edge hedge, decide_eq_false (ne_of_edge hedge (by decide))]
    rfl
  rw [hline, keyOf, List.takeWhile_append_of_pos hpos]
  cases e.keyValue.before with
  | nil => exact List.append_nil w
  | cons gap g => cases gap <;> exact List.append_nil w

/-! ### Plain lines are read -/

theorem found_top (h : tableText e = none) :
    found e = if topLevelName (keyOf (lineOf e)) then some .unreadable else none := by
  rw [found, h]
  rfl

theorem found_in {t : List Char} (h : tableText e = some t) :
    found e = (sought t (lineOf e)).map fun look => ((literal look.2).map look.1).getD .unreadable := by
  rw [found, h]
  rfl

theorem faithful_of_sought {t rest : List Char} {mk : List Char → Found} (htable : tableText e = some t)
    (hsought : sought t (lineOf e) = some (mk, rest))
    (hread : literal rest = none ∨ ∃ s, v = .string s ∧ literal rest = some (dashed s.value))
    (hfacts : ∀ s, v = .string s → ∀ f, f ∈ facts e ↔ f = mk (dashed s.value)) : Faithful e := by
  have hfound : found e = some (((literal rest).map mk).getD .unreadable) := by
    rw [found_in htable, hsought]
    rfl
  rcases hread with hnone | ⟨s, hs, hsome⟩
  · left
    rw [hfound, hnone]
    rfl
  · right
    intro f
    rw [hfacts s hs f, hfound, hsome, Option.map_some, Option.getD_some, Option.some_inj, eq_comm]

theorem eq_of_mem_of_length {α : Type*} {l : List α} {a b : α} (h : l.length ≤ 1) (ha : a ∈ l) (hb : b ∈ l) :
    a = b := by
  cases l with
  | nil => cases ha
  | cons c l =>
    have hnil : l = [] := List.length_eq_zero_iff.mp (by rw [List.length_cons] at h; omega)
    rw [hnil] at ha hb
    rw [List.mem_singleton.mp ha, List.mem_singleton.mp hb]

theorem facts_string {s : Str} {path : Path} {f : Found} (hvalue : e.keyValue.value = .string s)
    (hpath : e.table ++ e.keyValue.key.path = path) (hfact : factOf (path, some s.value) = some f) :
    ∀ g, g ∈ facts e ↔ g = f := by
  intro g
  rw [facts, Entry.leaves, hvalue, hpath, Value.leaves, List.filterMap_cons, hfact]
  exact List.mem_singleton

theorem factOf_rename {front : Path} {t dep text : List Char} (ht : t ∈ depTables) :
    factOf (front ++ [.key t, .key dep, .key packageWord], some text) = some (.rename (dashed dep) (dashed text)) := by
  have hat : renameAt (front ++ [.key t, .key dep, .key packageWord]) = some (dashed dep) := by
    rw [renameAt, List.reverse_append]
    exact if_pos ⟨rfl, ht⟩
  have hne : ∀ w : List Char, front ++ [.key t, .key dep, .key packageWord] ≠ [.key w, .key nameWord] := by
    intro w heq
    have hlength := congrArg List.length heq
    rw [List.length_append] at hlength
    have hshort : front.length + 3 = 2 := hlength
    omega
  rw [factOf, if_neg (hne _), if_neg (hne _), hat]
  rfl

theorem tableText_header {h : Header} (hvalid : h.key.valid = true) (hheader : e.header = some h) (hcomment : h.comment = none) :
    tableText e = some h.key.render := by
  rw [tableText, hheader, Option.map_some, tableOf_header hvalid hcomment]

theorem faithful_of_passes (hfacts : facts e = []) (hpasses : Passes e) : Faithful e := by
  right
  have hfound : found e = none := by
    unfold Passes at hpasses
    cases htable : tableText e with
    | none =>
      rw [htable] at hpasses
      rw [found_top htable]
      exact if_neg hpasses
    | some t =>
      rw [htable] at hpasses
      rw [found_in htable, show sought t (lineOf e) = none from hpasses]
      rfl
  intro f
  rw [hfacts, hfound]
  exact ⟨(fun hmem => nomatch hmem), (fun heq => nomatch heq)⟩

theorem faithful_of_flags (hflags : Flags e) : Faithful e := by
  left
  unfold Flags at hflags
  cases htable : tableText e with
  | none =>
    rw [htable] at hflags
    rw [found_top htable]
    exact if_pos hflags
  | some t =>
    rw [htable] at hflags
    obtain ⟨look, hlook, hnone⟩ := hflags
    rw [found_in htable, hlook, Option.map_some, hnone]
    rfl

section Fields

variable (hkey : e.keyValue.key.valid = true) (hvalue : e.keyValue.value.valid = true) {h : Header}
  (hhead : h.key.valid = true) (hheader : e.header = some h) (hcomment : h.comment = none)

include hkey hvalue hhead hheader hcomment

/-- `name = …` in `[package]` or `[lib]`. -/
theorem faithful_of_name {t : List Char} (hwritten : h.key = ⟨.bare t, []⟩) (ht : t = packageWord ∨ t = libWord)
    (htable : e.table = h.key.path) (hname : e.keyValue.key = ⟨.bare nameWord, []⟩)
    (hplain : Unescaped e.keyValue.value) : Faithful e := by
  obtain ⟨hkeyOf, tail, hline⟩ := lineOf_bare hname hkey hvalue
  have hrender : h.key.render = t := by
    rw [hwritten]
    exact List.append_nil t
  have hsought : sought t (lineOf e) = some (if t = packageWord then .package else .lib,
      gaps e.keyValue.before ++ '=' :: (gaps e.keyValue.after ++ (e.keyValue.value.render ++ tail))) := by
    rw [sought, if_pos ht, if_pos hkeyOf, hline]
    rfl
  refine faithful_of_sought ((tableText_header hhead hheader hcomment).trans (by rw [hrender])) hsought
    (literal_value hvalue hplain _ _ _) fun s hs => @facts_string e s [.key t, .key nameWord] _ hs ?_ ?_
  · rw [htable, hwritten, hname]
    rfl
  · rcases ht with rfl | rfl
    · rw [factOf, if_pos rfl, if_pos rfl]
    · rw [factOf, if_neg (by decide), if_pos rfl, if_neg (by decide)]

/-- `dep = { …, package = … }` in a table of dependencies. -/
theorem faithful_of_inline {t dep tail more : List Char} {entries : Entries} {close : List Gap} {v : Value}
    (hends : h.key.EndsIn t) (ht : t ∈ depTables) (htable : e.table = h.key.path)
    (hdep : e.keyValue.key = ⟨.bare dep, []⟩) (hentries : e.keyValue.value = .table entries close)
    (hown : entries.Holds packageWord v tail)
    (hfirst : behindPackage none ((lineOf e).dropWhile (· ≠ '{')) = some (tail ++ more)) (hplain : Unescaped v)
    (honly : (facts e).length ≤ 1) : Faithful e := by
  obtain ⟨hkeyOf, -⟩ := lineOf_bare hdep hkey hvalue
  have hnames : ¬(h.key.render = packageWord ∨ h.key.render = libWord) := by
    have hlast := lastPart_endsIn hends ht
    rintro (heq | heq)
    · rw [heq] at hlast
      exact absurd ht (hlast ▸ by decide)
    · rw [heq] at hlast
      exact absurd ht (hlast ▸ by decide)
  have hsought : sought h.key.render (lineOf e) = some (.rename (dashed dep), tail ++ more) := by
    rw [sought, if_neg hnames, if_pos (isDeps_endsIn hends ht), hfirst, hkeyOf]
    rfl
  -- the value of `package` is read where it stands in the line
  obtain ⟨before, after, rest, htail⟩ := Entries.tail_of_holds hown
  have hentriesValid : entries.valid = true := by
    rw [hentries] at hvalue
    exact hvalue
  have hread := literal_value (Entries.valid_of_holds hentriesValid hown) hplain before after (rest ++ more)
  have hsame : tail ++ more = gaps before ++ '=' :: (gaps after ++ (v.render ++ (rest ++ more))) := by
    rw [htail]
    simp
  rw [← hsame] at hread
  refine faithful_of_sought (tableText_header hhead hheader hcomment) hsought hread fun s hs f => ?_
  -- the rename is the one thing that the line says
  have hmem : Found.rename (dashed dep) (dashed s.value) ∈ facts e := by
    obtain ⟨front, hpath⟩ := path_endsIn hends
    subst hs
    refine List.mem_filterMap.mpr ⟨_, ?_, @factOf_rename front _ _ _ ht⟩
    have hleaf := Entries.mem_leaves (e.table ++ e.keyValue.key.path) hown
    rw [Entry.leaves, hentries, Value.leaves]
    rw [htable, hpath, hdep] at hleaf ⊢
    simpa [Key.path, Key.names, Name.value] using hleaf
  constructor
  · intro hf
    exact eq_of_mem_of_length honly hf hmem
  · rintro rfl
    exact hmem

omit hkey hvalue hheader hcomment in
/-- The text of a header that ends in the name of a dependency. -/
theorem render_snoc {k : Key} {dep : List Char} {g : List Gap} (hwritten : h.key = k.snoc g (.bare dep)) :
    h.key.render = k.render ++ '.' :: (gaps g ++ dep) ∧ (Name.bare dep).valid = true ∧ '.' ∉ gaps g ++ dep := by
  have hdepValid : (Name.bare dep).valid = true := by
    have hall := hhead
    rw [hwritten, Key.snoc, Key.valid, List.all_append, Bool.and_eq_true, Bool.and_eq_true] at hall
    simpa using hall.2.2
  refine ⟨?_, hdepValid, ?_⟩
  · rw [hwritten, Key.snoc, Key.render, Key.render, Key.renderOthers, Key.renderOthers]
    simp [gaps, Name.render]
  · rw [List.mem_append, not_or]
    constructor
    · exact fun hmem => absurd (isWhitespace_gaps _ hmem) (by decide)
    · exact fun hmem => absurd (edge_bare hdepValid hmem) (by decide)

/-- `package = …` in the table of one dependency. -/
theorem faithful_of_entry {k : Key} {t dep : List Char} {g : List Gap} (hends : k.EndsIn t) (ht : t ∈ depTables)
    (hwritten : h.key = k.snoc g (.bare dep)) (hdep : dep ∉ depTables) (htable : e.table = h.key.path)
    (hpackage : e.keyValue.key = ⟨.bare packageWord, []⟩) (hplain : Unescaped e.keyValue.value) : Faithful e := by
  obtain ⟨hkeyOf, tail, hline⟩ := lineOf_bare hpackage hkey hvalue
  obtain ⟨hrender, hdepValid, hdot⟩ := render_snoc hhead hwritten
  have htrim : trim isWhitespace (gaps g ++ dep) = dep := by
    have hsolid : Solid isWhitespace dep := solid_name (fun c => isWhitespace_edge) hdepValid
    have happly := trim_append (isWhitespace_gaps (g := g)) hsolid []
    rw [List.append_nil, List.rdropWhile_nil, List.append_nil] at happly
    exact happly
  -- the header is none of the tables that the scan looks at first
  have hnames : ¬(h.key.render = packageWord ∨ h.key.render = libWord) := by
    have hin : '.' ∈ h.key.render := by
      rw [hrender]
      simp
    rintro (heq | heq)
    · rw [heq] at hin
      exact absurd hin (by decide)
    · rw [heq] at hin
      exact absurd hin (by decide)
  have hnotDeps : ¬isDeps h.key.render = true := by
    rw [isDeps, hrender, lastPart_append hdot, decide_eq_true_eq]
    intro hmem
    cases g with
    | nil => exact hdep hmem
    | cons gap g =>
      have hall : depTables.all (fun t => !(t.head?.any isWhitespace)) = true := by decide
      have hspace := List.all_eq_true.mp hall _ hmem
      have hgap : isWhitespace gap.char = true := by cases gap <;> decide
      rw [show (gaps (gap :: g) ++ dep).head? = some gap.char from rfl, Option.any_some, hgap] at hspace
      cases hspace
  have hsought : sought h.key.render (lineOf e) = some (.rename (dashed dep),
      gaps e.keyValue.before ++ '=' :: (gaps e.keyValue.after ++ (e.keyValue.value.render ++ tail))) := by
    rw [sought, if_neg hnames, if_neg hnotDeps, hrender, rsplitOnce_append hdot]
    dsimp only
    rw [if_pos ⟨isDeps_endsIn hends ht, hkeyOf⟩, htrim, hline]
    rfl
  obtain ⟨front, hpath⟩ := path_endsIn hends
  refine faithful_of_sought (tableText_header hhead hheader hcomment) hsought (literal_value hvalue hplain _ _ _)
    fun s hs => @facts_string e s (front ++ [.key t, .key dep, .key packageWord]) _ hs ?_ (factOf_rename ht)
  have hsnoc : h.key.path = k.path ++ [.key dep] := by
    rw [hwritten, Key.path, Key.path, Key.names, Key.names, Key.snoc]
    simp [Name.value]
  rw [htable, hsnoc, hpath, hpackage]
  simp [Key.path, Key.names, Name.value]

end Fields

theorem faithful_of_plain (hkey : e.keyValue.key.valid = true) (hvalue : e.keyValue.value.valid = true)
    (hheaders : ∀ h, e.header = some h → h.key.valid = true) (h : Plain e) : Faithful e := by
  cases h with
  | passed hfacts hpasses => exact faithful_of_passes hfacts hpasses
  | flagged hflags => exact faithful_of_flags hflags
  | name hheader hcomment hwritten ht htable hname hplain =>
    exact faithful_of_name hkey hvalue (hheaders _ hheader) hheader hcomment hwritten ht htable hname hplain
  | inline hheader hcomment hends ht htable hdep hentries hown hfirst hplain honly =>
    exact faithful_of_inline hkey hvalue (hheaders _ hheader) hheader hcomment hends ht htable hdep hentries hown hfirst
      hplain honly
  | entry hheader hcomment hends ht hwritten hdep htable hpackage hplain =>
    exact faithful_of_entry hkey hvalue (hheaders _ hheader) hheader hcomment hends ht hwritten hdep htable hpackage hplain

/-- A manifest of plain lines: what the scan reads without a complaint is what the manifest says. -/
theorem honest_of_plain (hvalid : d.Valid) (hplain : ∀ e ∈ d.entries, Plain e) : Honest d := by
  refine honest_of_faithful hvalid fun e he => ?_
  obtain ⟨hkey, hvalue, hheaders⟩ := valid_of_mem_entriesFrom hvalid.lines (fun _ heq => by cases heq) he
  exact faithful_of_plain hkey hvalue hheaders (hplain e he)

/-- `[package]`, `name = "core-rs"`, `[dependencies]`, `io = { path = "io", package = "core-io" }`. -/
def sample : Document :=
  let plain := fun text : List Char => Value.string (.basic (text.map .plain))
  let header := fun name => Line.header ⟨false, [], [], ⟨.bare name, []⟩, [], [], none⟩
  let entries := Entries.cons [.space] ⟨.bare ['p', 'a', 't', 'h'], []⟩ [.space] [.space] (plain ['i', 'o']) []
    (.cons [.space] ⟨.bare packageWord, []⟩ [.space] [.space] (plain "core-io".toList) [.space] .nil)
  [⟨header packageWord, false⟩,
    ⟨.keyValue ⟨[], ⟨.bare nameWord, []⟩, [.space], [.space], plain "core-rs".toList, [], none⟩, false⟩,
    ⟨header "dependencies".toList, false⟩,
    ⟨.keyValue ⟨[], ⟨.bare ['i', 'o'], []⟩, [.space], [.space], .table entries [], [], none⟩, false⟩]

theorem honest_of_plain_sample : Honest sample := by
  have hunescaped : ∀ text : List Char, Unescaped (.string (.basic (text.map .plain))) := by
    intro text pieces heq p hp
    rw [Value.string.injEq, Str.basic.injEq] at heq
    rw [← heq] at hp
    obtain ⟨c, -, rfl⟩ := List.mem_map.mp hp
    exact ⟨c, rfl⟩
  refine honest_of_plain ⟨by decide, by decide⟩ fun e he => ?_
  rcases List.mem_cons.mp he with rfl | he
  · exact .name rfl rfl rfl (.inl rfl) rfl rfl (hunescaped _)
  rcases List.mem_cons.mp he with rfl | he
  · exact @Plain.inline _ _ _ _ _ ['}'] _ _ _ rfl rfl (.inl ⟨rfl, rfl⟩) (by decide) rfl rfl rfl
      (.inr (.inl ⟨rfl, rfl, rfl⟩)) rfl (hunescaped _) (by decide)
  · cases he

/-- `[package] # c` with `name = "a"`: the scan takes the header for another table, and passes the name over. -/
theorem not_honest_comment : ¬∀ d : Document, d.Valid → Honest d := by
  intro h
  have hread := h [⟨.header ⟨false, [], [], ⟨.bare packageWord, []⟩, [], [.space], some [' ', 'c']⟩, false⟩,
    ⟨.keyValue ⟨[], ⟨.bare nameWord, []⟩, [], [], .string (.basic [.plain 'a']), [], none⟩, false⟩]
    ⟨by decide, by decide⟩ rfl
  exact absurd hread.package (by decide)

end CodeGraph.Pipeline.CargoNames
