import CodeGraph.Pipeline.Incremental
import Mathlib

/-!
# When an incremental run sees every change

A run skips a file whose stamp is the cached one and carries its stored hash forward. That is right
as long as the stored hash is of the contents at the cached stamp, which the scan does not ensure: it
caches the stamp of a file whose hashing failed, or whose re-indexing did.

The invariant `Settled` says it for one file and one stamp. `settled_step` keeps it over a run that
meets `RunOK`: the run's reads of the file, where it recorded this stamp, succeeded and saw the
contents that belong to the stamp. `currentHashes_fresh` is the consequence for the run after.
-/

namespace CodeGraph.Pipeline.Incremental

open CodeGraph.Lib CodeGraph.Indexer.Merkle CodeGraph.Pipeline.PreParse CodeGraph.Utils.Config

variable {Hash Extract : Type} [DecidableEq Hash] {tools : Tools Hash Extract}
  {contents : String → FileStamp → ByteArray} {path : String} {stamp : FileStamp}
  {st st' : State Hash} {i : RunInput} {f : FileEntry}

/-! ### The condition on one run -/

/-- The reads of a round that re-indexes the file: bytes that are not UTF-8 are those of the stamp.
(The row of any other file is stored under the hash the run has already.) -/
def ReadOK (tools : Tools Hash Extract) (b : ByteArray) (r : PreRead) : Prop :=
  ¬ r.Oversize tools → ∀ bytes, r.bytes = some bytes → String.fromUTF8? bytes = none → bytes = b

/-- The scan of the file `f`, where it hashes it: its read succeeds and sees the bytes `b` that belong
to its stamp, or it fails and their hash is stored already. -/
def ScanOK (tools : Tools Hash Extract) (b : ByteArray) (st : State Hash) (w : Walk)
    (f : FileEntry) : Prop :=
  Hashes w st.cache f →
    f.bytes = some b ∨ f.bytes = none ∧ st.stored f.path = some (tools.hash b)

/-- All the rounds of a run. -/
def RoundsOK (tools : Tools Hash Extract) (b : ByteArray) (path : String) (i : RunInput) : Prop :=
  ReadOK tools b (i.pre path) ∧ ∀ round ∈ i.fanOut, round.1 path = true → ReadOK tools b (round.2 path)

/-- What the runs before must have met for the file `path`, should it be found at `stamp` again. A run
that succeeded and recorded this stamp scanned the file well, and re-indexed it with a read that
succeeded unless the right hash was stored. A run that failed while the cache held this stamp
committed nothing for the file, or saw it at this stamp and read it well. -/
def RunOK (tools : Tools Hash Extract) (contents : String → FileStamp → ByteArray) (path : String)
    (stamp : FileStamp) (st : State Hash) : Event → Prop
  | .succeeds i => ∀ f, i.walk.file path = some f → f.stamp = some stamp →
      ScanOK tools (contents path stamp) st i.walk f ∧
      RoundsOK tools (contents path stamp) path i ∧
      (st.stored path ≠ some (tools.hash (contents path stamp)) →
        (i.pre path).Oversize tools ∨ (i.pre path).bytes.isSome)
  | .fails i done => (∃ c ∈ st.cache, c.fileStamps path = some stamp) →
      (∀ k, done k path = false) ∨
      ∃ f, i.walk.file path = some f ∧ f.stamp = some stamp ∧
        ScanOK tools (contents path stamp) st i.walk f ∧ RoundsOK tools (contents path stamp) path i

/-- Where the cache holds this stamp of the file, the stored hash is that of its contents. -/
def Settled (tools : Tools Hash Extract) (contents : String → FileStamp → ByteArray) (path : String)
    (stamp : FileStamp) (st : State Hash) : Prop :=
  ∀ c ∈ st.cache, c.fileStamps path = some stamp →
    st.stored path = some (tools.hash (contents path stamp))

/-! ### One run -/

omit [DecidableEq Hash] in
/-- A file that the scan hashes and reads has the hash of what was read. -/
theorem currentHashes_of_hashed {w : Walk} {b : ByteArray} (hf : w.file path = some f)
    (hh : Hashes w st.cache f) (hb : f.bytes = some b) :
    currentHashes tools st w path = some (tools.hash b) := by
  simp [currentHashes, scanDirectoryCached, hf, hh, hb]

omit [DecidableEq Hash] in
/-- A file that the walk lists and the scan has no hash of keeps its stored one. -/
theorem currentHashes_of_carried {w : Walk} (hf : w.file path = some f)
    (hh : Hashes w st.cache f → f.bytes = none) :
    currentHashes tools st w path = st.stored path := by
  by_cases h : Hashes w st.cache f
  · simp [currentHashes, scanDirectoryCached, newCache, DirectoryCache.fileExists, hf, h, hh h]
  · simp [currentHashes, scanDirectoryCached, newCache, DirectoryCache.fileExists, hf, h]

omit [DecidableEq Hash] in
/-- A skipped file is at its cached stamp. -/
theorem cached_of_not_hashes {w : Walk} (hf : w.file path = some f) (hs : f.stamp = some stamp)
    (hh : ¬ Hashes w st.cache f) : ∃ c ∈ st.cache, c.fileStamps path = some stamp := by
  unfold Hashes at hh
  push Not at hh
  have hn := hh.2
  rw [hs, Walk.path_of_file hf] at hn
  cases hc : st.cache with
  | none =>
    rw [hc] at hn
    simp [fileNeedsHashing] at hn
  | some c =>
    rw [hc] at hn
    refine ⟨c, rfl, ?_⟩
    cases hst : c.fileStamps path with
    | none =>
      simp [fileNeedsHashing, hst] at hn
    | some stamp' =>
      simp only [fileNeedsHashing, Option.bind_some, hst, ne_eq, decide_not, Bool.not_eq_true',
        decide_eq_false_iff_not, not_not] at hn
      rw [hn]

omit [DecidableEq Hash] in
/-- A well-scanned file's current hash is that of the contents at its stamp. -/
theorem currentHashes_of_scanOK {w : Walk} (hst : Settled tools contents path stamp st)
    (hf : w.file path = some f) (hs : f.stamp = some stamp)
    (hscan : ScanOK tools (contents path stamp) st w f) :
    currentHashes tools st w path = some (tools.hash (contents path stamp)) := by
  by_cases hh : Hashes w st.cache f
  · rcases hscan hh with hb | ⟨hb, hstored⟩
    · exact currentHashes_of_hashed hf hh hb
    · rw [Walk.path_of_file hf] at hstored
      rw [currentHashes_of_carried hf (fun _ => hb)]
      exact hstored
  · obtain ⟨c, hc, hcs⟩ := cached_of_not_hashes hf hs hh
    rw [currentHashes_of_carried hf (fun h => absurd h hh)]
    exact hst c hc hcs

omit [DecidableEq Hash] in
/-- A round with the right hash writes that hash, or nothing where its read fails. -/
theorem storedHash_of_readOK {b : ByteArray} {r : PreRead} (hl : (detectLanguage path).isSome)
    (hr : ReadOK tools b r) :
    (preParse tools path (some (tools.hash b)) r).storedHash = some (tools.hash b) ∨
      (preParse tools path (some (tools.hash b)) r).storedHash = none ∧ ¬ r.Oversize tools ∧
        r.bytes = none := by
  by_cases ho : r.Oversize tools
  · left
    rw [storedHash_of_oversize hl ho]
    rfl
  · cases hb : r.bytes with
    | none => exact .inr ⟨storedHash_of_unread ho hb, ho, rfl⟩
    | some bytes =>
      left
      cases hu : String.fromUTF8? bytes with
      | none => rw [storedHash_of_not_utf8 hl ho hb hu, hr ho bytes hb hu]
      | some source => rw [storedHash_of_utf8 hl ho hb hu, Option.getD_some]

omit [DecidableEq Hash] in
theorem indexRows_of_readOK {hashes stored : String → Option Hash} {on : String → Bool}
    {pre : String → PreRead} {b : ByteArray} (hl : (detectLanguage path).isSome)
    (hh : hashes path = some (tools.hash b)) (hr : on path = true → ReadOK tools b (pre path))
    (hs : stored path = some (tools.hash b)) :
    indexRows tools hashes on pre stored path = some (tools.hash b) := by
  unfold indexRows
  split_ifs with hon
  · rw [hh]
    rcases storedHash_of_readOK hl (hr hon) with h | ⟨h, -⟩
    · rw [h]
      rfl
    · rw [h, hs]
      rfl
  · exact hs

omit [DecidableEq Hash] in
theorem fanOutRows_of_readOK {hashes : String → Option Hash} {done : ℕ → String → Bool}
    {b : ByteArray} (hl : (detectLanguage path).isSome) (hh : hashes path = some (tools.hash b))
    (rounds : List ((String → Bool) × (String → PreRead)))
    (hr : ∀ round ∈ rounds, round.1 path = true → ReadOK tools b (round.2 path))
    (k : ℕ) (stored : String → Option Hash) (hs : stored path = some (tools.hash b)) :
    fanOutRows tools hashes done k rounds stored path = some (tools.hash b) := by
  induction rounds generalizing k stored with
  | nil => exact hs
  | cons round rounds ih =>
    obtain ⟨on, pre⟩ := round
    apply ih (fun r hmem => hr r (List.mem_cons_of_mem _ hmem))
    apply indexRows_of_readOK hl hh _ hs
    intro hon
    exact hr (on, pre) List.mem_cons_self (Bool.and_eq_true_iff.mp hon).1

/-- A file with a current hash is not deleted. -/
theorem not_deleted_of_some {old current : String → Option Hash} {h : Hash}
    (hc : current path = some h) : (computeDiff old current).deletedFiles path = false := by
  simp [computeDiff, hc]

/-- **A run whose reads of the file are good leaves the right hash**, if it was stored, or if the run
is one that re-indexes the file with a read that succeeds. -/
theorem runStored_of_readOK {done : ℕ → String → Bool} {b : ByteArray}
    (hl : (detectLanguage path).isSome)
    (hcur : currentHashes tools st i.walk path = some (tools.hash b))
    (hr : RoundsOK tools b path i)
    (hs : st.stored path = some (tools.hash b) ∨
      done 1 path = true ∧ ((i.pre path).Oversize tools ∨ (i.pre path).bytes.isSome)) :
    runStored tools st i done path = some (tools.hash b) := by
  unfold runStored
  apply fanOutRows_of_readOK hl hcur _ hr.2
  have hdel : (computeDiff st.stored (currentHashes tools st i.walk)).deletedFiles path = false :=
    not_deleted_of_some hcur
  by_cases hold : st.stored path = some (tools.hash b)
  · apply indexRows_of_readOK hl hcur (fun _ => hr.1)
    rw [hdel, Bool.false_and, Bool.false_and, if_neg (by simp)]
    exact hold
  · -- The diff reports the file, and the round reads it.
    obtain ⟨hdone, hread⟩ := hs.resolve_left hold
    have hrep : (computeDiff st.stored (currentHashes tools st i.walk)).Reports path :=
      (reports_computeDiff_iff hcur).mpr hold
    unfold indexRows
    beta_reduce
    rw [decide_eq_true hrep, hdone, Bool.true_or, Bool.true_and, if_pos rfl, hcur]
    rcases storedHash_of_readOK hl hr.1 with h | ⟨-, hno, hnb⟩
    · rw [h]
      rfl
    · rcases hread with ho | hb
      · exact absurd ho hno
      · rw [hnb] at hb
        cases hb

/-- A failed run that committed nothing for the file. -/
theorem runStored_of_not_done {done : ℕ → String → Bool} (h : ∀ k, done k path = false) :
    runStored tools st i done path = st.stored path := by
  have hfan : ∀ (hashes : String → Option Hash) rounds k (stored : String → Option Hash),
      fanOutRows tools hashes done k rounds stored path = stored path := by
    intro hashes rounds
    induction rounds with
    | nil => exact fun _ _ => rfl
    | cons round rounds ih =>
      intro k stored
      obtain ⟨on, pre⟩ := round
      rw [fanOutRows, ih]
      simp [indexRows, h]
  unfold runStored
  rw [hfan]
  simp [indexRows, h]

theorem settled_step {a : Event} (hst : Settled tools contents path stamp st)
    (hok : RunOK tools contents path stamp st a) (h : step tools st a = some st') :
    Settled tools contents path stamp st' := by
  cases a with
  | succeeds i =>
    obtain rfl := Option.some_inj.mp h
    intro c hc hcs
    obtain rfl := Option.some_inj.mp hc
    -- The run recorded the stamp, so it saw the file at it.
    obtain ⟨f, hf, hs⟩ := Option.bind_eq_some_iff.mp hcs
    obtain ⟨hscan, hrounds, hread⟩ := hok f hf hs
    apply runStored_of_readOK (Walk.language_of_file hf) (currentHashes_of_scanOK hst hf hs hscan)
      hrounds
    by_cases hold : st.stored path = some (tools.hash (contents path stamp))
    · exact .inl hold
    · exact .inr ⟨rfl, hread hold⟩
  | fails i done =>
    obtain rfl := Option.some_inj.mp h
    intro c hc hcs
    rcases hok ⟨c, hc, hcs⟩ with hnone | ⟨f, hf, hs, hscan, hrounds⟩
    · exact (runStored_of_not_done hnone).trans (hst c hc hcs)
    · exact runStored_of_readOK (Walk.language_of_file hf)
        (currentHashes_of_scanOK hst hf hs hscan) hrounds (.inl (hst c hc hcs))

/-! ### The run after -/

/-- **An incremental run sees the present contents.** Take any sequence of runs, failed ones included,
and a run after it whose walk lists the file with a stat that succeeds and a read that would see the
contents of that stamp. If the scan hashes the file, or every run before met `RunOK` for it, then its
current hash is that of its contents, and the diff reports it exactly when the stored hash is
another. -/
theorem currentHashes_fresh {stored : String → Option Hash} {events : List Event}
    (hrun : run (step tools) (State.start stored) events = some st) {w : Walk}
    (hf : w.file path = some f) (hs : f.stamp = some stamp)
    (hb : f.bytes = some (contents path stamp))
    (hok : Hashes w st.cache f ∨
      AllSteps (step tools) (RunOK tools contents path stamp) (State.start stored) events) :
    currentHashes tools st w path = some (tools.hash (contents path stamp)) ∧
      ((computeDiff st.stored (currentHashes tools st w)).Reports path ↔
        st.stored path ≠ some (tools.hash (contents path stamp))) := by
  have hcur : currentHashes tools st w path = some (tools.hash (contents path stamp)) := by
    rcases hok with hh | hall
    · exact currentHashes_of_hashed hf hh hb
    · have hstart : Settled tools contents path stamp (State.start stored) := by
        intro c hc
        cases hc
      have hst : Settled tools contents path stamp st :=
        AllSteps.invariant settled_step hstart hall hrun
      exact currentHashes_of_scanOK hst hf hs fun _ => .inl hb
  exact ⟨hcur, reports_computeDiff_iff hcur⟩

/-! ### A failed read and a good one -/

/-- A tree with the one file `x.py`, at a stamp of its own and with the bytes a read of it returns. -/
def oneFileWalk (bytes : Option ByteArray) : Walk where
  dirs := [⟨"", some 1⟩]
  files := [⟨"x.py", "", some ⟨2, 1⟩, bytes⟩]
  dirs_nodup := List.nodup_singleton _
  files_nodup := List.nodup_singleton _

def oneFileRun (bytes : Option ByteArray) : RunInput where
  walk := oneFileWalk bytes
  extra _ := false
  pre _ := ⟨some ⟨1, some 2⟩, bytes⟩
  fanOut := []

/-- `x.py` is indexed as `a` and edited to `b`. The first run meets a failing read, the second one is
given its cache and skips the file: it holds `a`'s hash for it and reports nothing. -/
theorem failed_read_leaves_edit_unreported :
    ∃ st, run (step plainTools) (State.start fun _ => some "a".toUTF8)
        [.succeeds (oneFileRun none)] = some st ∧
      (oneFileWalk (some "b".toUTF8)).file "x.py" =
        some ⟨"x.py", "", some ⟨2, 1⟩, some "b".toUTF8⟩ ∧
      currentHashes plainTools st (oneFileWalk (some "b".toUTF8)) "x.py" ≠
        some (plainTools.hash "b".toUTF8) ∧
      st.stored "x.py" ≠ some (plainTools.hash "b".toUTF8) ∧
      ¬ (computeDiff st.stored
        (currentHashes plainTools st (oneFileWalk (some "b".toUTF8)))).Reports "x.py" := by
  refine ⟨_, rfl, ?_, ?_, ?_, ?_⟩
  · rfl
  · decide +kernel
  · decide +kernel
  · decide +kernel

/-- With a read that succeeds the first run stores the edit, and the second carries it forward. -/
theorem read_edit_carried_forward :
    ∃ st, run (step plainTools) (State.start fun _ => some "a".toUTF8)
        [.succeeds (oneFileRun (some "b".toUTF8))] = some st ∧
      ¬ Hashes (oneFileWalk (some "b".toUTF8)) st.cache
        ⟨"x.py", "", some ⟨2, 1⟩, some "b".toUTF8⟩ ∧
      currentHashes plainTools st (oneFileWalk (some "b".toUTF8)) "x.py" =
        some (plainTools.hash "b".toUTF8) ∧
      ((computeDiff st.stored
          (currentHashes plainTools st (oneFileWalk (some "b".toUTF8)))).Reports "x.py" ↔
        st.stored "x.py" ≠ some (plainTools.hash "b".toUTF8)) := by
  have hfile : (oneFileWalk (some "b".toUTF8)).file "x.py" =
      some ⟨"x.py", "", some ⟨2, 1⟩, some "b".toUTF8⟩ := rfl
  -- the run reads the new content, whose tick is the walk's
  have hok : AllSteps (step plainTools)
      (RunOK plainTools (fun _ _ => "b".toUTF8) "x.py" ⟨2, 1⟩) (State.start fun _ => some "a".toUTF8)
      [.succeeds (oneFileRun (some "b".toUTF8))] := by
    refine ⟨?_, fun _ _ => trivial⟩
    intro f hf _
    obtain rfl := Option.some_inj.mp (hfile.symm.trans hf)
    refine ⟨fun _ => .inl rfl, ⟨?_, ?_⟩, fun _ => .inr rfl⟩
    · intro _ bytes hb _
      exact (Option.some_inj.mp hb).symm
    · intro round hround
      cases hround
  obtain ⟨st, hrun, hskip⟩ : ∃ st, run (step plainTools) (State.start fun _ => some "a".toUTF8)
        [.succeeds (oneFileRun (some "b".toUTF8))] = some st ∧
      ¬ Hashes (oneFileWalk (some "b".toUTF8)) st.cache
        ⟨"x.py", "", some ⟨2, 1⟩, some "b".toUTF8⟩ := ⟨_, rfl, by decide +kernel⟩
  refine ⟨st, hrun, hskip, ?_⟩
  refine currentHashes_fresh hrun hfile ?_ ?_ (.inr hok)
  · rfl
  · rfl

end CodeGraph.Pipeline.Incremental
