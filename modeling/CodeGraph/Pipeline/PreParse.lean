import CodeGraph.Utils.Config
import Mathlib.Data.List.Infix

/-!
# Reading and parsing one file

The pre-parse of one file in `pipeline/index_files.rs` (Phase 1a). The file system enters as what one
pre-parse of a file met (`PreRead`): the answer of `metadata` and the bytes of the one read that
follows it. The hash function and the grammars are parameters.
-/

namespace CodeGraph.Pipeline.PreParse

open CodeGraph.Utils.Config

/-- `looks_like_cpp_header`. -/
def looksLikeCppHeader (source : String) : Bool :=
  ["::", "public:", "private:", "protected:", "class ", "namespace ", "template<", "template <"].any
    fun marker => decide (marker.toList <:+: source.toList)

/-! ### The pre-parse -/

/-- What `metadata` tells of a file: its length, and its modification time in seconds since the epoch
where there is one. -/
structure FileMeta where
  len : ℕ
  modified : Option ℤ
  deriving DecidableEq

/-- What one pre-parse met: `stat` is none where `metadata` failed, and `bytes` is what the read after
it returned, none where it failed. That read is `hash_file` for an oversize file whose hash nobody
supplied, `read_source_bytes` otherwise. -/
structure PreRead where
  stat : Option FileMeta
  bytes : Option ByteArray

/-- The parameters of an indexing run: the hash, the grammars (`parse_tree`, then the nodes and
relations extracted from the tree) and `max_file_size`. -/
structure Tools (Hash Extract : Type) where
  hash : ByteArray → Hash
  parse : String → String → Option Extract
  maxFileSize : ℕ

/-- `PreParseOutcome`. -/
inductive Outcome (Hash Extract : Type)
  | parsed (hash : Hash) (lastModified : ℤ) (language : String) (extract : Extract)
  | skipped (hash : Hash) (lastModified : ℤ) (language : String)
  | nothing

variable {Hash Extract : Type} (tools : Tools Hash Extract)

/-- The `last_modified` column: zero where the time is not known. -/
def PreRead.lastModified (r : PreRead) : ℤ := (r.stat.bind FileMeta.modified).getD 0

/-- The file is set aside unread. -/
def PreRead.Oversize (r : PreRead) : Prop := ∃ m ∈ r.stat, tools.maxFileSize < m.len

instance (r : PreRead) : Decidable (r.Oversize tools) :=
  match h : r.stat with
  | none => isFalse (by simp [PreRead.Oversize, h])
  | some m => decidable_of_iff (tools.maxFileSize < m.len) (by simp [PreRead.Oversize, h])

/-- The language the source is parsed as: a `.h` header with C++ in it is C++. -/
def languageOf (path language source : String) : String :=
  if language = "c" ∧ ".h".toList <:+ path.toList ∧ looksLikeCppHeader source then "cpp"
  else language

/-- `parse_one` of `pre_parse_batch`: `provided` is the hash the caller has of the file. -/
def preParse (path : String) (provided : Option Hash) (r : PreRead) : Outcome Hash Extract :=
  match detectLanguage path with
  | none => .nothing
  | some language =>
    if r.Oversize tools then
      match provided <|> r.bytes.map tools.hash with
      | some hash => .skipped hash r.lastModified language
      | none => .nothing
    else
      match r.bytes with
      | none => .nothing
      | some bytes =>
        match String.fromUTF8? bytes with
        | none => .skipped (tools.hash bytes) r.lastModified language
        | some source =>
          let language := languageOf path language source
          let hash := provided.getD (tools.hash source.toUTF8)
          match tools.parse source language with
          | none => .skipped hash r.lastModified language
          | some extract => .parsed hash r.lastModified language extract

/-- The `blake3_hash` that Phase 1b stores for the file, if it writes its row at all. -/
def Outcome.storedHash : Outcome Hash Extract → Option Hash
  | .parsed hash _ _ _ | .skipped hash _ _ => some hash
  | .nothing => none

/-- The tools of the worked cases: bytes are their own hash, and every source parses. -/
def plainTools : Tools ByteArray Unit := ⟨id, fun _ _ => some (), 1048576⟩

/-! ### What the outcome stores -/

variable {tools} {path : String} {provided : Option Hash} {r : PreRead} {bytes : ByteArray}

theorem toUTF8_of_decoded {source : String} (h : String.fromUTF8? bytes = some source) :
    source.toUTF8 = bytes := by
  unfold String.fromUTF8? at h
  split_ifs at h with hv
  rw [← Option.some_inj.mp h]
  rfl

theorem storedHash_of_oversize (hl : (detectLanguage path).isSome) (ho : r.Oversize tools) :
    (preParse tools path provided r).storedHash = (provided <|> r.bytes.map tools.hash) := by
  obtain ⟨language, hl⟩ := Option.isSome_iff_exists.mp hl
  unfold preParse
  simp only [hl, if_pos ho]
  cases provided <|> r.bytes.map tools.hash <;> rfl

theorem storedHash_of_unread (ho : ¬ r.Oversize tools) (hb : r.bytes = none) :
    (preParse tools path provided r).storedHash = none := by
  unfold preParse
  cases detectLanguage path with
  | none => rfl
  | some language => simp only [if_neg ho, hb, Outcome.storedHash]

/-- A file that is not UTF-8 is stored under the hash of the bytes that were read. -/
theorem storedHash_of_not_utf8 (hl : (detectLanguage path).isSome) (ho : ¬ r.Oversize tools)
    (hb : r.bytes = some bytes) (hu : String.fromUTF8? bytes = none) :
    (preParse tools path provided r).storedHash = some (tools.hash bytes) := by
  obtain ⟨language, hl⟩ := Option.isSome_iff_exists.mp hl
  unfold preParse
  simp only [hl, if_neg ho, hb, hu, Outcome.storedHash]

/-- A file that is UTF-8 is stored under the supplied hash, whether it parses or not. -/
theorem storedHash_of_utf8 {source : String} (hl : (detectLanguage path).isSome)
    (ho : ¬ r.Oversize tools) (hb : r.bytes = some bytes)
    (hu : String.fromUTF8? bytes = some source) :
    (preParse tools path provided r).storedHash = some (provided.getD (tools.hash bytes)) := by
  obtain ⟨language, hl⟩ := Option.isSome_iff_exists.mp hl
  unfold preParse
  simp only [hl, if_neg ho, hb, hu, toUTF8_of_decoded hu]
  cases tools.parse source (languageOf path language source) <;> rfl

theorem storedHash_of_unknown_language (hl : detectLanguage path = none) :
    (preParse tools path provided r).storedHash = none := by
  unfold preParse
  simp only [hl, Outcome.storedHash]

end CodeGraph.Pipeline.PreParse
