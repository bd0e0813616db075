import CodeGraph.Pipeline.FileRun
import Mathlib

/-!
# Which bytes the stored hash is of

The row of a file is stored under the hash the scan took, and its nodes come from bytes read later.
`storedHash_is_of_origin_iff` says for every interleaving with other programs' writes when the two
are of one text. `Inv` ties the state of a run to what its steps saw, and `stored_iff_faithful` is the
case analysis over the branches of `preParse`: only a file that is not UTF-8 is always stored under
the hash of what was read.
-/

namespace CodeGraph.Pipeline.FileRun

open CodeGraph.Lib CodeGraph.Indexer.Merkle CodeGraph.Pipeline.PreParse CodeGraph.Utils.Config

variable {Hash Extract : Type} {tools : Tools Hash Extract} {path : String}
  {s s' : State Hash Extract} {a : Action}

/-- The hash was not supplied, or it is of the bytes the row stands for. A file that is read and is
not UTF-8 needs neither; an oversize one is not read, and a hash taken after its stat must be of the
bytes that were measured. -/
def Faithful (tools : Tools Hash Extract) (s : State Hash Extract) : Prop :=
  if s.preRead.Oversize tools then
    s.supplied = s.measured ∨ s.supplied = none ∧ s.bytes = s.measured
  else (s.bytes.bind String.fromUTF8?) = none ∨ s.supplied = none ∨ s.supplied = s.bytes

/-- What holds along every run. -/
structure Inv (tools : Tools Hash Extract) (path : String) (s : State Hash Extract) : Prop where
  measured : s.stat.isSome → s.measured.isSome
  /-- Before the read there are no bytes. -/
  unread : s.phase = .toScan ∨ s.phase = .toStat ∨ s.phase = .toRead → s.bytes = none
  row : ∀ o, s.row = some o → s.phase = .committed ∧
    o = preParse tools path (s.supplied.map tools.hash) s.preRead
  /-- Unwritten since the stat, for a file that may still turn out to be oversize. -/
  unwritten_stat : s.phase = .toRead → s.written = false → s.stat.isSome → s.disk = s.measured
  unwritten : s.phase = .toCommit ∨ s.phase = .committed → s.written = false →
    (s.origin tools).isSome → s.disk = s.origin tools
  /-- Until the stat the file counts as written. -/
  fresh : s.phase = .toScan ∨ s.phase = .toStat → s.written = true

theorem inv_start (disk : Option ByteArray) : Inv tools path (State.start disk) := by
  constructor <;> simp [State.start]

/-- An oversize file was measured. -/
theorem stat_isSome_of_oversize {r : PreRead} (h : r.Oversize tools) : r.stat.isSome := by
  obtain ⟨m, hm, -⟩ := h
  rw [Option.isSome_iff_exists]
  exact ⟨m, hm⟩

/-- Whether a file is oversize is up to the stat. -/
theorem oversize_congr {r r' : PreRead} (hr : r'.stat = r.stat) (h : r.Oversize tools) :
    r'.Oversize tools := by
  unfold PreRead.Oversize
  rw [hr]
  exact h

theorem origin_of_oversize (h : s.preRead.Oversize tools) : s.origin tools = s.measured := if_pos h

theorem origin_of_not_oversize (h : ¬ s.preRead.Oversize tools) : s.origin tools = s.bytes := if_neg h

theorem disk_eq_origin_of_oversize (ho : s.preRead.Oversize tools) (hd : s.disk = s.measured) :
    s.disk = s.origin tools :=
  hd.trans (origin_of_oversize ho).symm

theorem disk_eq_origin_of_not_oversize (ho : ¬ s.preRead.Oversize tools) (hd : s.disk = s.bytes) :
    s.disk = s.origin tools :=
  hd.trans (origin_of_not_oversize ho).symm

theorem inv_step (h : Inv tools path s) (hs : step tools path s a = some s') :
    Inv tools path s' := by
  cases a with
  -- Another program writes: nothing is said of the disk from here on.
  | write contents =>
    obtain rfl := Option.some_inj.mp hs
    exact ⟨h.measured, h.unread, h.row, fun _ hw => by simp at hw, fun _ hw => by simp at hw,
      fun _ => rfl⟩
  -- What the scan hands over: a hash it took, one carried forward, or none.
  | scan | carry contents | noHash =>
    simp only [step] at hs
    split_ifs at hs with hp
    obtain rfl := Option.some_inj.mp hs
    refine ⟨h.measured, fun _ => h.unread (.inl hp), fun o ho => ?_, by simp, by simp,
      fun _ => h.fresh (.inl hp)⟩
    have := (h.row o ho).1
    rw [hp] at this
    cases this
  | stat modified =>
    simp only [step] at hs
    split at hs
    case h_1 b hp hd =>
      obtain rfl := Option.some_inj.mp hs
      refine ⟨fun _ => rfl, fun _ => h.unread (.inr (.inl hp)), fun o ho => ?_, fun _ _ _ => hd,
        by simp, by simp⟩
      have := (h.row o ho).1
      rw [hp] at this
      cases this
    case h_2 => cases hs
  -- Without a stat nothing is measured.
  | statFails =>
    simp only [step] at hs
    split_ifs at hs with hp
    obtain rfl := Option.some_inj.mp hs
    refine ⟨by simp, fun _ => h.unread (.inr (.inl hp)), fun o ho => ?_, by simp, by simp, by simp⟩
    have := (h.row o ho).1
    rw [hp] at this
    cases this
  | read =>
    simp only [step] at hs
    split at hs
    case h_1 b hp hd =>
      split_ifs at hs with hu ho
      · obtain rfl := Option.some_inj.mp hs
        refine ⟨h.measured, by simp, fun o ho' => ?_, by simp, fun _ hw _ => ?_, by simp⟩
        · have := (h.row o ho').1
          rw [hp] at this
          cases this
        · -- An oversize file: the bytes it stands for are those of the stat.
          exact disk_eq_origin_of_oversize (oversize_congr rfl ho)
            (h.unwritten_stat hp hw (stat_isSome_of_oversize ho))
      · obtain rfl := Option.some_inj.mp hs
        refine ⟨h.measured, by simp, fun o ho' => ?_, by simp, fun _ _ _ => ?_, by simp⟩
        · have := (h.row o ho').1
          rw [hp] at this
          cases this
        · exact disk_eq_origin_of_not_oversize (fun h' => ho (oversize_congr rfl h')) hd
    case h_2 => cases hs
  | readFails =>
    simp only [step] at hs
    split_ifs at hs with hp
    obtain rfl := Option.some_inj.mp hs
    refine ⟨h.measured, by simp, fun o ho' => ?_, by simp, fun _ hw horig => ?_, by simp⟩
    · have := (h.row o ho').1
      rw [hp.1] at this
      cases this
    · by_cases ho : s.preRead.Oversize tools
      · exact disk_eq_origin_of_oversize (oversize_congr rfl ho)
          (h.unwritten_stat hp.1 hw (stat_isSome_of_oversize ho))
      · have hnone : State.origin tools { s with phase := .toCommit, bytes := none } = none :=
          origin_of_not_oversize fun h' => ho (oversize_congr rfl h')
        rw [hnone] at horig
        cases horig
  -- The row gets the hash of the bytes read, or of the file that was too large to read.
  | commit =>
    simp only [step] at hs
    split_ifs at hs with hp
    obtain rfl := Option.some_inj.mp hs
    refine ⟨h.measured, by simp, fun o ho' => ⟨rfl, (Option.some_inj.mp ho').symm⟩, by simp,
      fun _ hw horig => ?_, by simp⟩
    rcases hp with hp | ⟨hp, hu⟩
    · exact h.unwritten (.inl hp) hw horig
    · exact disk_eq_origin_of_oversize (oversize_congr rfl hu.1)
        (h.unwritten_stat hp hw (stat_isSome_of_oversize hu.1))

theorem inv_of_run {disk : Option ByteArray} {as : List Action}
    (h : run (step tools path) (State.start disk) as = some s) : Inv tools path s :=
  run_invariant inv_step (inv_start disk) h

/-! ### The stored hash -/

/-- The branches of the pre-parse, once the row is written: the stored hash is that of the bytes the
row stands for exactly when the supplied hash is faithful. -/
theorem stored_iff_faithful (hinj : Function.Injective tools.hash) (hi : Inv tools path s)
    {h : Hash}
    (hstored : (preParse tools path (s.supplied.map tools.hash) s.preRead).storedHash = some h) :
    (∃ b, s.origin tools = some b ∧ h = tools.hash b) ↔ Faithful tools s := by
  have hlang : (detectLanguage path).isSome := by
    rw [Option.isSome_iff_ne_none]
    intro hn
    rw [storedHash_of_unknown_language hn] at hstored
    cases hstored
  unfold Faithful
  -- an oversize file has the scan's hash, or the one of the bytes that were read
  by_cases ho : s.preRead.Oversize tools
  · rw [storedHash_of_oversize hlang ho] at hstored
    rw [origin_of_oversize ho, if_pos ho]
    obtain ⟨m, hm⟩ := Option.isSome_iff_exists.mp (hi.measured (stat_isSome_of_oversize ho))
    rw [hm]
    cases hsup : s.supplied with
    | some b =>
      rw [hsup] at hstored
      have hb : tools.hash b = h := Option.some_inj.mp hstored
      simp only [Option.some_inj, ← hb, hinj.eq_iff, reduceCtorEq, false_and, or_false]
      exact ⟨fun ⟨c, hc, hbc⟩ => hbc.trans hc.symm, fun hbm => ⟨m, rfl, hbm⟩⟩
    | none =>
      rw [hsup] at hstored
      obtain ⟨b, hb, hbh⟩ : ∃ b, s.bytes = some b ∧ tools.hash b = h := by
        have hmap : s.bytes.map tools.hash = some h := hstored
        exact Option.map_eq_some_iff.mp hmap
      rw [hb]
      simp only [Option.some_inj, ← hbh, hinj.eq_iff, reduceCtorEq, true_and, false_or]
      exact ⟨fun ⟨c, hc, hbc⟩ => hbc.trans hc.symm, fun hbm => ⟨m, rfl, hbm⟩⟩
  · -- any other file is read, and the scan's hash goes before the one of the text
    rw [origin_of_not_oversize ho, if_neg ho]
    cases hb : s.bytes with
    | none =>
      rw [storedHash_of_unread ho hb] at hstored
      cases hstored
    | some b =>
      cases hu : String.fromUTF8? b with
      | none =>
        rw [storedHash_of_not_utf8 hlang ho hb hu] at hstored
        have hbh : tools.hash b = h := Option.some_inj.mp hstored
        simp [hu, ← hbh]
      | some source =>
        rw [storedHash_of_utf8 hlang ho hb hu, Option.some_inj] at hstored
        cases hsup : s.supplied with
        | none =>
          rw [hsup] at hstored
          have hbh : tools.hash b = h := hstored
          simp [← hbh]
        | some c =>
          rw [hsup] at hstored
          have hch : tools.hash c = h := hstored
          simp only [Option.some_inj, ← hch, hinj.eq_iff, Option.bind_some, hu, reduceCtorEq,
            false_or]
          exact ⟨fun ⟨d, hd, hcd⟩ => hcd.trans hd.symm, fun hcb => ⟨b, rfl, hcb⟩⟩

/-- The index has `path` under the hash `h`, and a later scan has the hash of what is on disk. -/
def laterDiff [DecidableEq Hash] (tools : Tools Hash Extract) (path : String)
    (s : State Hash Extract) (h : Hash) : DiffResult :=
  computeDiff (fun p => if p = path then some h else none)
    (fun p => if p = path then s.disk.map tools.hash else none)

/-- **When the stored hash is the hash of what was parsed.** In every interleaving of a run's steps
with other programs' writes: the row is stored under the hash of the bytes it stands for, and is
current whenever the file was not written after and a later diff reports it unchanged, exactly when
the hash the caller supplied is faithful. -/
theorem storedHash_is_of_origin_iff [DecidableEq Hash] (hinj : Function.Injective tools.hash)
    {disk : Option ByteArray} {as : List Action}
    (hrun : run (step tools path) (State.start disk) as = some s) {o : Outcome Hash Extract}
    (hrow : s.row = some o) {h : Hash} (hstored : o.storedHash = some h) :
    (∃ b, s.origin tools = some b ∧ h = tools.hash b ∧
      (s.written = false → ¬ (laterDiff tools path s h).Reports path → s.disk = some b)) ↔
      Faithful tools s := by
  have hi : Inv tools path s := inv_of_run hrun
  obtain ⟨hphase, ho⟩ := hi.row o hrow
  rw [ho] at hstored
  rw [← stored_iff_faithful hinj hi hstored]
  constructor
  · rintro ⟨b, hb, hh, -⟩
    exact ⟨b, hb, hh⟩
  · rintro ⟨b, hb, hh⟩
    refine ⟨b, hb, hh, fun hw _ => ?_⟩
    rw [hi.unwritten (.inr hphase) hw (by rw [hb]; rfl), hb]

/-! ### A write between the scan and the read -/

/-- The scan hashes `a`, the file becomes `b`, and the nodes of `b` are stored under the hash of
`a`. -/
theorem write_after_scan_stored_under_old_hash :
    ∃ s o h, run (step plainTools "x.py") (State.start (some "a".toUTF8))
        [.scan, .write (some "b".toUTF8), .stat none, .read, .commit] = some s ∧
      s.row = some o ∧ o.storedHash = some h ∧
      ¬ ∃ b, s.origin plainTools = some b ∧ h = plainTools.hash b ∧
        (s.written = false → ¬ (laterDiff plainTools "x.py" s h).Reports "x.py" →
          s.disk = some b) := by
  refine ⟨_, _, "a".toUTF8, rfl, rfl, ?_, ?_⟩
  · decide +kernel
  · rintro ⟨b, hb, hh, -⟩
    have hb' : some "b".toUTF8 = some b := hb
    rw [← Option.some_inj.mp hb'] at hh
    exact absurd hh (by decide +kernel)

/-- Without that write the row is stored under the hash of what was parsed. -/
theorem unwritten_stored_under_own_hash :
    ∃ s o h, run (step plainTools "x.py") (State.start (some "a".toUTF8))
        [.scan, .stat none, .read, .commit] = some s ∧
      s.row = some o ∧ o.storedHash = some h ∧
      ∃ b, s.origin plainTools = some b ∧ h = plainTools.hash b ∧
        (s.written = false → ¬ (laterDiff plainTools "x.py" s h).Reports "x.py" →
          s.disk = some b) := by
  obtain ⟨s, o, hrun, hrow, hstored, hsup⟩ : ∃ s o,
      run (step plainTools "x.py") (State.start (some "a".toUTF8))
        [.scan, .stat none, .read, .commit] = some s ∧ s.row = some o ∧
      o.storedHash = some "a".toUTF8 ∧ Faithful plainTools s :=
    ⟨_, _, rfl, rfl, by decide +kernel, .inr (.inr rfl)⟩
  exact ⟨s, o, _, hrun, hrow, hstored,
    (storedHash_is_of_origin_iff Function.injective_id hrun hrow hstored).mpr hsup⟩

end CodeGraph.Pipeline.FileRun
