import CodeGraph.Lib.Run
import CodeGraph.Snapshot.Install

/-!
# What an installing call can leave behind

The swap is the removal of the write-ahead log of the old `index.db` and then a rename. A call gets to it with a
snapshot that is complete (`Call.Holds`), so whatever the calls do to each other, `index.db` is the old one or a
complete snapshot. The log is another matter: once a call has removed it the old `index.db` stands without its last
transactions until a rename, and where it could not be removed it stays beside the snapshot (`install_swaps`).
-/

namespace CodeGraph.Snapshot.Install

open CodeGraph.Lib CodeGraph.Pipeline.InFlight

variable {Body Wal : Type} {o : Outside Body Wal} {dir dir' : Dir Body Wal} {c c' : Call Body} {r : Request}
  {e : Event} {change : Option (Change Body)} {s s' s₀ : Installs Body Wal} {d : Database Body}

/-! ### Complete snapshots -/

def Verified (o : Outside Body Wal) (r : Request) : Prop :=
  verifyChecksumImpl o.blake3 r.url r.artifact r.pin r.sidecar = true

/-- The bytes that the artifact decodes to, none of them missing. -/
def Decoded (o : Outside Body Wal) (r : Request) (bytes : Bytes) : Prop :=
  Verified o r ∧ r.artifact.take 4 = zstdMagic ∧ decompressWithCap o.decode r.artifact maxDecompressedBytes = (bytes, true)

/-- The database in these bytes, which passed `validate`. -/
def Validated (o : Outside Body Wal) (r : Request) (d : Database Body) : Prop :=
  ∃ bytes, Decoded o r bytes ∧ o.openFile bytes = some d ∧ validate d = true

/-- That database with the two rows of the call. -/
def Complete (o : Outside Body Wal) (r : Request) (d : Database Body) : Prop :=
  ∃ d₀, Validated o r d₀ ∧
    d = { d₀ with metaTable := insertAll [(metaSourceUrl, r.url), (metaFetchedAt, r.now)] d₀.metaTable }

/-! ### A call -/

/-- What a call has in its partial files. -/
def Call.Holds (o : Outside Body Wal) (c : Call Body) : Prop :=
  match c.phase with
  | .checksum => c.zst = some c.request.artifact
  | .magic => c.zst = some c.request.artifact ∧ Verified o c.request
  | .decompress => c.zst = some c.request.artifact ∧ Verified o c.request ∧ c.request.artifact.take 4 = zstdMagic
  | .validate => ∃ bytes, c.db = some (.raw bytes) ∧ Decoded o c.request bytes
  | .sourceUrl => ∃ d, c.db = some (.opened d []) ∧ Validated o c.request d
  | .fetchedAt => ∃ d, c.db = some (.opened d [(metaSourceUrl, c.request.url)]) ∧ Validated o c.request d
  | .checkpoint => ∃ d, c.db = some (.opened d [(metaSourceUrl, c.request.url), (metaFetchedAt, c.request.now)]) ∧
      Validated o c.request d
  | .dropWal | .dropShm | .rename => ∃ d, c.db = some (.opened d []) ∧ Complete o c.request d
  | _ => True

/-- The call is between the removal of the log and the rename. -/
def Call.Swapping (c : Call Body) : Prop := c.phase = .dropShm ∨ c.phase = .rename

/-- The call has been at the removal of the log. -/
def Call.AfterDrop (c : Call Body) : Prop :=
  match c.phase with
  | .dropShm | .rename | .tidy _ | .installed | .stopped => True
  | .cleanUp _ | .failed => c.failedAt = some .rename
  | _ => False

/-- The call has renamed, or will not return. -/
def Call.Swapped (c : Call Body) : Prop :=
  match c.phase with
  | .tidy _ | .installed | .stopped => True
  | _ => False

/-- What an operation does to the directory. -/
def Effect (o : Outside Body Wal) (dir dir' : Dir Body Wal) (c c' : Call Body) : Option (Change Body) → Prop
  | none => dir'.index = dir.index ∧ dir'.wal = dir.wal
  | some .dropped => dir'.index = dir.index ∧ dir'.wal = none ∧ c'.AfterDrop
  | some .kept => dir'.index = dir.index ∧ dir'.wal = dir.wal ∧ c'.AfterDrop
  | some (.replaced d) => dir'.index = some d ∧ dir'.wal = dir.wal ∧ c'.Swapped ∧ c.Swapping ∧
      (c.Holds o → Complete o c.request d)

/-- What an operation does. -/
structure Does (o : Outside Body Wal) (dir dir' : Dir Body Wal) (c c' : Call Body) (change : Option (Change Body)) :
    Prop where
  request : c'.request = c.request
  holds : c.Holds o → c'.Holds o
  afterDrop : c.AfterDrop → c'.AfterDrop
  swapped : c.Swapped → c'.Swapped
  swapping : c'.Swapping → c.Swapping ∨ dir'.wal = none ∨ change = some .kept
  effect : Effect o dir dir' c c' change

/-- The rows of the two writes to the `meta` table, in the order of their operations. -/
theorem complete_of_validated (h : Validated o r d) :
    Complete o r { d with metaTable := insertAll [(metaSourceUrl, r.url), (metaFetchedAt, r.now)] d.metaTable } :=
  ⟨d, h, rfl⟩

theorem complete_source (h : Complete o r d) : (d.metaTable.lookup metaSourceUrl).isSome := by
  obtain ⟨d₀, -, rfl⟩ := h
  exact isSome_lookup_insertAll (.inl List.mem_cons_self)

/-- An operation before the swap that returns an error, with whatever it leaves in the partial files. -/
theorem does_fails (hrequest : c'.request = c.request) (hphase : c'.phase = c.phase)
    (hearly : c.AfterDrop → c.phase = .rename) (hnot : ¬c.Swapped) : Does o dir dir c c'.fails none where
  request := hrequest
  holds := fun _ => trivial
  afterDrop := fun h => by
    show some c'.phase = some Phase.rename
    rw [hphase, hearly h]
  swapped := fun h => absurd h hnot
  swapping := by
    rintro (h | h)
    · cases h
    · cases h
  effect := ⟨rfl, rfl⟩

/-- An operation before the swap that goes on to another one before it. -/
theorem does_goes (hrequest : c'.request = c.request) (hholds : c.Holds o → c'.Holds o) (hearly : ¬c.AfterDrop)
    (hnot : ¬c.Swapped) (hswapping : ¬c'.Swapping) : Does o dir dir c c' none where
  request := hrequest
  holds := hholds
  afterDrop := fun h => absurd h hearly
  swapped := fun h => absurd h hnot
  swapping := fun h => absurd h hswapping
  effect := ⟨rfl, rfl⟩

/-- The process of a call stops. -/
theorem does_stops (c : Call Body) : Does o dir dir c { c with phase := .stopped } none where
  request := rfl
  holds := fun _ => trivial
  afterDrop := fun _ => trivial
  swapped := fun _ => trivial
  swapping := by
    rintro (h | h)
    · cases h
    · cases h
  effect := ⟨rfl, rfl⟩

theorem remove_request (c : Call Body) (file : Removal) : (c.remove file).request = c.request := by
  cases file with
  | _ => rfl

theorem remove_failedAt (c : Call Body) (file : Removal) : (c.remove file).failedAt = c.failedAt := by
  cases file with
  | _ => rfl

/-- A step of a call that is taking its partial files away, or has none to take away. -/
theorem does_after (hrequest : c'.request = c.request) (hholds : c'.Holds o) (hafter : c.AfterDrop → c'.AfterDrop)
    (hswapped : c.Swapped → c'.Swapped) (hswapping : ¬c'.Swapping) : Does o dir dir c c' none where
  request := hrequest
  holds := fun _ => hholds
  afterDrop := hafter
  swapped := hswapped
  swapping := fun h => absurd h hswapping
  effect := ⟨rfl, rfl⟩

theorem step_stop (h : c.step o dir .stop = some (dir', c', change)) :
    dir' = dir ∧ c' = { c with phase := .stopped } ∧ change = none := by
  obtain ⟨r, phase, zst, db, failedAt⟩ := c
  cases phase with
  | installed | failed | stopped => cases h
  | _ =>
    cases h
    exact ⟨rfl, rfl, rfl⟩

/-- What an operation up to the rename does: it returns an error, or the call goes on with what it holds. -/
structure Prepares (o : Outside Body Wal) (dir dir' : Dir Body Wal) (c c' : Call Body)
    (change : Option (Change Body)) : Prop where
  quiet : dir' = dir ∧ change = none
  request : c'.request = c.request
  goes : (∃ c₁ : Call Body, c' = c₁.fails ∧ c₁.request = c.request ∧ c₁.phase = c.phase) ∨
    ¬c'.Swapping ∧ (c.Holds o → c'.Holds o)

theorem Prepares.does (h : Prepares o dir dir' c c' change) (hearly : ¬c.AfterDrop) : Does o dir dir' c c' change := by
  have hnot : ¬c.Swapped := by
    obtain ⟨r, phase, zst, db, failedAt⟩ := c
    cases phase with
    | tidy | installed | stopped => exact fun _ => hearly trivial
    | _ => exact id
  obtain ⟨⟨rfl, rfl⟩, hrequest, ⟨c₁, rfl, hrequest₁, hphase⟩ | ⟨hswapping, hholds⟩⟩ := h
  · exact does_fails hrequest₁ hphase (fun h => absurd h hearly) hnot
  · exact does_goes hrequest hholds hearly hnot hswapping

theorem prepares_fails {c₁ : Call Body} (h : some (dir, c₁.fails, (none : Option (Change Body))) = some (dir', c', change))
    (hrequest : c₁.request = c.request) (hphase : c₁.phase = c.phase) : Prepares o dir dir' c c' change := by
  cases h
  exact ⟨⟨rfl, rfl⟩, hrequest, .inl ⟨c₁, rfl, hrequest, hphase⟩⟩

theorem prepares_goes {c₁ : Call Body} (h : some (dir, c₁, (none : Option (Change Body))) = some (dir', c', change))
    (hrequest : c₁.request = c.request) (hswapping : ¬c₁.Swapping) (hholds : c.Holds o → c₁.Holds o) :
    Prepares o dir dir' c c' change := by
  cases h
  exact ⟨⟨rfl, rfl⟩, hrequest, .inr ⟨hswapping, hholds⟩⟩

/-- The operations on the artifact. -/
theorem prepares_artifact (h : c.step o dir .ok = some (dir', c', change))
    (hphase : c.phase ∈ [.start, .download, .checksum, .magic, .decompress]) : Prepares o dir dir' c c' change := by
  obtain ⟨r, phase, zst, db, failedAt⟩ := c
  unfold Call.step at h
  dsimp only at h
  -- each phase hands on what it has checked of the artifact
  cases phase with
  | start =>
    dsimp only at h
    split_ifs at h with hurl
    · exact prepares_goes h rfl (by simp [Call.Swapping]) fun _ => trivial
    · exact prepares_goes h rfl (by simp [Call.Swapping]) fun _ => trivial
  | download =>
    dsimp only at h
    split_ifs at h with hcap
    · exact prepares_fails h rfl rfl
    · exact prepares_goes h rfl (by simp [Call.Swapping]) fun _ => rfl
  | checksum =>
    dsimp only at h
    split_ifs at h with hverified
    · refine prepares_goes h rfl (by simp [Call.Swapping]) fun hholds => ?_
      have hzst : zst = some r.artifact := hholds
      rw [hzst] at hverified
      exact ⟨hzst, hverified⟩
    · exact prepares_fails h rfl rfl
  | magic =>
    dsimp only at h
    split_ifs at h with hmagic
    · refine prepares_goes h rfl (by simp [Call.Swapping]) fun hholds => ?_
      obtain ⟨hzst, hverified⟩ : zst = some r.artifact ∧ Verified o r := hholds
      rw [hzst] at hmagic
      exact ⟨hzst, hverified, hmagic⟩
    · exact prepares_fails h rfl rfl
  | decompress =>
    dsimp only at h
    split_ifs at h with hdecoded
    · refine prepares_goes h rfl (by simp [Call.Swapping]) fun hholds => ?_
      obtain ⟨hzst, hverified, hmagic⟩ : zst = some r.artifact ∧ Verified o r ∧ _ := hholds
      rw [hzst] at hdecoded
      refine ⟨_, rfl, hverified, hmagic, ?_⟩
      show decompressWithCap o.decode r.artifact maxDecompressedBytes = _
      rw [hzst]
      exact Prod.ext rfl hdecoded
    · exact prepares_fails h rfl rfl
  | _ => simp at hphase

/-- The operations on the partial database: it is opened, gets the two rows and loses its write-ahead log. -/
theorem prepares_database (h : c.step o dir .ok = some (dir', c', change))
    (hphase : c.phase ∈ [.validate, .sourceUrl, .fetchedAt, .checkpoint]) : Prepares o dir dir' c c' change := by
  obtain ⟨r, phase, zst, db, failedAt⟩ := c
  unfold Call.step at h
  dsimp only at h
  -- each phase goes by what the database file is: gone, raw bytes, or open
  cases phase with
  | validate =>
    rcases db with _ | bytes | ⟨main, wal⟩
    · exact prepares_fails h rfl rfl
    · dsimp only at h
      rcases hopen : o.openFile bytes with _ | main
      · rw [hopen] at h
        exact prepares_fails h rfl rfl
      · rw [hopen] at h
        dsimp only at h
        split_ifs at h with hvalid
        · refine prepares_goes h rfl (by simp [Call.Swapping]) fun hholds => ?_
          obtain ⟨bytes', hraw, hdecoded⟩ := hholds
          obtain rfl : bytes = bytes' := by simpa using hraw
          exact ⟨main, rfl, bytes, hdecoded, hopen, hvalid⟩
        · exact prepares_fails h rfl rfl
    · exact prepares_fails h rfl rfl
  | sourceUrl =>
    rcases db with _ | bytes | ⟨main, wal⟩
    · exact prepares_fails h rfl rfl
    · exact prepares_fails h rfl rfl
    · refine prepares_goes h rfl (by simp [Call.Swapping]) fun hholds => ?_
      obtain ⟨d, hopened, hvalidated⟩ := hholds
      obtain ⟨rfl, rfl⟩ : main = d ∧ wal = [] := by simpa using hopened
      exact ⟨main, rfl, hvalidated⟩
  | fetchedAt =>
    rcases db with _ | bytes | ⟨main, wal⟩
    · exact prepares_fails h rfl rfl
    · exact prepares_fails h rfl rfl
    · refine prepares_goes h rfl (by simp [Call.Swapping]) fun hholds => ?_
      obtain ⟨d, hopened, hvalidated⟩ := hholds
      obtain ⟨rfl, rfl⟩ : main = d ∧ wal = [(metaSourceUrl, r.url)] := by simpa using hopened
      exact ⟨main, rfl, hvalidated⟩
  | checkpoint =>
    rcases db with _ | bytes | ⟨main, wal⟩
    · exact prepares_fails h rfl rfl
    · exact prepares_fails h rfl rfl
    · refine prepares_goes h rfl (by simp [Call.Swapping]) fun hholds => ?_
      obtain ⟨d, hopened, hvalidated⟩ := hholds
      obtain ⟨rfl, rfl⟩ : main = d ∧ wal = [(metaSourceUrl, r.url), (metaFetchedAt, r.now)] := by
        simpa using hopened
      exact ⟨_, rfl, complete_of_validated hvalidated⟩
  | _ => simp at hphase

/-- An operation up to the rename that succeeds and is neither the removal of a sidecar nor the rename. -/
theorem does_prepare (h : c.step o dir .ok = some (dir', c', change)) (hearly : ¬c.AfterDrop)
    (hdrop : c.phase ≠ .dropWal) (hend : ∀ rest, c.phase ≠ .cleanUp rest) : Does o dir dir' c c' change := by
  cases hphase : c.phase with
  | start | download | checksum | magic | decompress =>
    exact (prepares_artifact h (by simp [hphase])).does hearly
  | validate | sourceUrl | fetchedAt | checkpoint => exact (prepares_database h (by simp [hphase])).does hearly
  | dropWal => exact absurd hphase hdrop
  | cleanUp rest => exact absurd hphase (hend rest)
  | failed => simp [Call.step, hphase] at h
  | dropShm | rename | tidy rest | installed | stopped => exact absurd (by simp [Call.AfterDrop, hphase]) hearly

/-- An operation that returns an error. Only those on the sidecars and on the partial files go on after it. -/
theorem does_of_fail {left : Bytes} (h : c.step o dir (.fail left) = some (dir', c', change)) :
    Does o dir dir' c c' change := by
  have hfails : ∀ c₁ : Call Body, some (dir, c₁.fails, (none : Option (Change Body))) = some (dir', c', change) →
      c₁.request = c.request → c₁.phase = c.phase → (c.AfterDrop → c.phase = .rename) → ¬c.Swapped →
      Does o dir dir' c c' change := by
    rintro c₁ ⟨⟩ hrequest hphase hearly hnot
    exact does_fails hrequest hphase hearly hnot
  obtain ⟨r, phase, zst, db, failedAt⟩ := c
  unfold Call.step at h
  dsimp only at h
  -- a failure before the swap ends the call, and one behind it leaves the old log or goes on
  cases phase with
  | start =>
    cases h
    exact does_goes rfl (fun _ => trivial) id id (by simp [Call.Swapping])
  | download | decompress => exact hfails _ h rfl rfl (fun h => absurd h id) id
  | checksum | magic | validate | sourceUrl | fetchedAt | checkpoint =>
    exact hfails _ h rfl rfl (fun h => absurd h id) id
  | rename => exact hfails _ h rfl rfl (fun _ => rfl) id
  | dropWal =>
    cases h
    refine ⟨rfl, fun hholds => hholds, fun h => absurd h id, fun h => absurd h id, fun _ => ?_, ?_⟩
    · rcases hwal : dir.wal with _ | wal
      · exact .inr (.inl rfl)
      · exact .inr (.inr rfl)
    · rcases hwal : dir.wal with _ | wal
      · exact ⟨rfl, rfl⟩
      · exact ⟨rfl, rfl, trivial⟩
  | dropShm =>
    cases h
    exact ⟨rfl, fun hholds => hholds, fun _ => trivial, fun h => absurd h id, fun _ => .inl (.inl rfl), rfl, rfl⟩
  | tidy rest =>
    cases rest with
    | nil =>
      cases h
      exact does_after rfl trivial (fun _ => trivial) (fun _ => trivial) (by simp [Call.Swapping])
    | cons file rest =>
      cases h
      exact does_after rfl trivial (fun _ => trivial) (fun _ => trivial) (by simp [Call.Swapping])
  | cleanUp rest =>
    cases rest with
    | nil =>
      cases h
      exact does_after rfl trivial id id (by simp [Call.Swapping])
    | cons file rest =>
      cases h
      exact does_after rfl trivial id id (by simp [Call.Swapping])
  | installed | failed | stopped => cases h

theorem does_of_ok (h : c.step o dir .ok = some (dir', c', change)) : Does o dir dir' c c' change := by
  have hprepare := does_prepare h
  obtain ⟨r, phase, zst, db, failedAt⟩ := c
  cases phase with
  | start | download | checksum | magic | decompress | validate | sourceUrl | fetchedAt | checkpoint =>
    exact hprepare id (by simp) (by simp)
  | dropWal =>
    cases h
    refine ⟨rfl, fun hholds => hholds, fun h => absurd h id, fun h => absurd h id, fun _ => .inr (.inl rfl), ?_⟩
    rcases hwal : dir.wal with _ | wal
    · exact ⟨rfl, hwal.symm⟩
    · exact ⟨rfl, rfl, trivial⟩
  | dropShm =>
    cases h
    exact ⟨rfl, fun hholds => hholds, fun _ => trivial, fun h => absurd h id, fun _ => .inl (.inl rfl), rfl, rfl⟩
  -- the swap: the new file is complete, and the old log is gone
  | rename =>
    unfold Call.step at h
    dsimp only at h
    rcases db with _ | bytes | ⟨main, wal⟩
    · cases h
      exact does_fails rfl rfl (fun _ => rfl) id
    · cases h
      exact does_fails rfl rfl (fun _ => rfl) id
    · cases h
      refine ⟨rfl, fun _ => trivial, fun _ => trivial, fun h => absurd h id, ?_, rfl, rfl, trivial, .inr rfl, ?_⟩
      · rintro (h | h)
        · cases h
        · cases h
      · rintro ⟨d, hopened, hcomplete⟩
        obtain ⟨rfl, rfl⟩ : main = d ∧ wal = [] := by simpa using hopened
        exact hcomplete
  | tidy rest =>
    cases rest with
    | nil =>
      cases h
      exact does_after rfl trivial (fun _ => trivial) (fun _ => trivial) (by simp [Call.Swapping])
    | cons file rest =>
      cases h
      exact does_after (remove_request _ file) trivial (fun _ => trivial) (fun _ => trivial) (by simp [Call.Swapping])
  | cleanUp rest =>
    cases rest with
    | nil =>
      cases h
      exact does_after rfl trivial id id (by simp [Call.Swapping])
    | cons file rest =>
      cases h
      refine does_after (remove_request _ file) trivial (fun hafter => ?_) id (by simp [Call.Swapping])
      exact (remove_failedAt _ file).trans hafter
  | installed | failed | stopped => cases h

theorem does_of_step (h : c.step o dir e = some (dir', c', change)) : Does o dir dir' c c' change := by
  cases e with
  | ok => exact does_of_ok h
  | fail left => exact does_of_fail h
  | stop =>
    obtain ⟨rfl, rfl, rfl⟩ := step_stop h
    exact does_stops c

/-! ### The calls together -/

/-- One operation of the call `i`: what becomes of it, of the directory and of the log. -/
structure Turn (o : Outside Body Wal) (s s' : Installs Body Wal) (i : ℕ) (c c' : Call Body)
    (change : Option (Change Body)) : Prop where
  before : s.calls[i]? = some c
  after : s'.calls[i]? = some c'
  others : ∀ j ≠ i, s'.calls[j]? = s.calls[j]?
  log : ∀ entry, entry ∈ s'.log ↔ entry ∈ s.log ∨ (entry.1 = i ∧ change = some entry.2)
  does : Does o s.dir s'.dir c c' change

theorem turn_of_step {a : ℕ × Event} (h : Installs.step o s a = some s') : ∃ c c' change, Turn o s s' a.1 c c' change := by
  obtain ⟨c, hc, h⟩ := Option.bind_eq_some_iff.mp h
  obtain ⟨⟨dir', c', change⟩, hstep, rfl⟩ := Option.map_eq_some_iff.mp h
  have hi : a.1 < s.calls.length := (List.getElem?_eq_some_iff.mp hc).1
  refine ⟨c, c', change, hc, List.getElem?_set_self hi, fun j hj => List.getElem?_set_ne hj.symm, ?_, does_of_step hstep⟩
  rintro ⟨i, d⟩
  cases change with
  | none => simp
  | some change => simp [Prod.ext_iff, eq_comm]

/-- What a call keeps from step to step is kept when another call takes a turn. -/
theorem Turn.keeps {P : Call Body → Prop} {i j : ℕ} (ht : Turn o s s' i c c' change) (hP : P c → P c')
    (h : ∃ c, s.calls[j]? = some c ∧ P c) : ∃ c, s'.calls[j]? = some c ∧ P c := by
  obtain ⟨c₁, hc₁, hc⟩ := h
  by_cases hj : j = i
  · subst hj
    obtain rfl : c = c₁ := Option.some_inj.mp (ht.before.symm.trans hc₁)
    exact ⟨c', ht.after, hP hc⟩
  · exact ⟨c₁, (ht.others j hj).trans hc₁, hc⟩

/-- The write-ahead log is removed or stays as it is. -/
theorem Turn.wal {i : ℕ} (ht : Turn o s s' i c c' change) : s'.dir.wal = s.dir.wal ∨ s'.dir.wal = none := by
  have heffect := ht.does.effect
  match change, heffect with
  | none, h => exact .inl h.2
  | some .dropped, h => exact .inr h.2.1
  | some .kept, h => exact .inl h.2.1
  | some (.replaced d), h => exact .inl h.2.1

theorem Turn.wal_none {i : ℕ} (ht : Turn o s s' i c c' change) (h : s.dir.wal = none) : s'.dir.wal = none := by
  rcases ht.wal with hwal | hwal
  · exact hwal.trans h
  · exact hwal

/-- `index.db` holds the complete snapshot of a call, and the old log stays beside it only if that call could not
remove it. -/
def Installs.Swapped (o : Outside Body Wal) (s : Installs Body Wal) : Prop :=
  ∃ i d, (∃ c, s.calls[i]? = some c ∧ Complete o c.request d) ∧ (i, .replaced d) ∈ s.log ∧ s.dir.index = some d ∧
    (s.dir.wal = none ∨ (i, .kept) ∈ s.log)

/-- What holds at every moment of the installs that begin at `s₀`. -/
structure Installs.Inv (o : Outside Body Wal) (s₀ s : Installs Body Wal) : Prop where
  holds : ∀ (i : ℕ) (c : Call Body), s.calls[i]? = some c → c.Holds o
  swapping : ∀ (i : ℕ) (c : Call Body), s.calls[i]? = some c → c.Swapping → s.dir.wal = none ∨ (i, .kept) ∈ s.log
  replaced : ∀ i d, (i, .replaced d) ∈ s.log → ∃ c, s.calls[i]? = some c ∧ c.Swapped
  dropped : ∀ i, (i, .dropped) ∈ s.log → ∃ c, s.calls[i]? = some c ∧ c.AfterDrop
  index : (s.dir.index = s₀.dir.index ∧ ∀ i d, (i, Change.replaced d) ∉ s.log) ∨ s.Swapped o
  wal : s.dir.wal = s₀.dir.wal ∨ (s.dir.wal = none ∧ ∃ i, (i, .dropped) ∈ s.log)

/-- A turn that does not put a database in place leaves it as it is, and what was seen of it. -/
theorem Turn.index {i : ℕ} (ht : Turn o s s' i c c' change) (hnot : ∀ d, change ≠ some (.replaced d)) :
    s'.dir.index = s.dir.index := by
  have heffect := ht.does.effect
  match change, heffect with
  | none, h => exact h.1
  | some .dropped, h => exact h.1
  | some .kept, h => exact h.1
  | some (.replaced d), _ => exact absurd rfl (hnot d)

theorem inv_step {a : ℕ × Event} (hinv : Installs.Inv o s₀ s) (h : Installs.step o s a = some s') :
    Installs.Inv o s₀ s' := by
  obtain ⟨c, c', change, ht⟩ := turn_of_step h
  have hlog : ∀ entry, entry ∈ s.log → entry ∈ s'.log := fun entry hentry => (ht.log entry).mpr (.inl hentry)
  -- the log of `index.db` does not come back, nor does an entry go
  have hkeep : ∀ i, s.dir.wal = none ∨ (i, .kept) ∈ s.log → s'.dir.wal = none ∨ (i, .kept) ∈ s'.log :=
    fun i h => h.imp ht.wal_none (hlog _)
  have hc : c.Holds o := hinv.holds _ c ht.before
  refine ⟨fun i c₁ hc₁ => ?_, fun i c₁ hc₁ hswapping => ?_, fun i d hentry => ?_, fun i hentry => ?_, ?_, ?_⟩
  · by_cases hi : i = a.1
    · subst hi
      obtain rfl : c' = c₁ := Option.some_inj.mp (ht.after.symm.trans hc₁)
      exact ht.does.holds hc
    · exact hinv.holds i c₁ ((ht.others i hi).symm.trans hc₁)
  · by_cases hi : i = a.1
    · subst hi
      obtain rfl : c' = c₁ := Option.some_inj.mp (ht.after.symm.trans hc₁)
      rcases ht.does.swapping hswapping with hbefore | hwal | hkept
      · exact hkeep _ (hinv.swapping _ c ht.before hbefore)
      · exact .inl hwal
      · exact .inr ((ht.log _).mpr (.inr ⟨rfl, hkept⟩))
    · exact hkeep i (hinv.swapping i c₁ ((ht.others i hi).symm.trans hc₁) hswapping)
  · rcases (ht.log _).mp hentry with hold | ⟨hi, hchange⟩
    · exact ht.keeps ht.does.swapped (hinv.replaced i d hold)
    · have heffect := ht.does.effect
      rw [hchange] at heffect
      dsimp only at hi
      exact ⟨c', hi ▸ ht.after, heffect.2.2.1⟩
  · rcases (ht.log _).mp hentry with hold | ⟨hi, hchange⟩
    · exact ht.keeps ht.does.afterDrop (hinv.dropped i hold)
    · have heffect := ht.does.effect
      rw [hchange] at heffect
      dsimp only at hi
      exact ⟨c', hi ▸ ht.after, heffect.2.2⟩
  · by_cases hreplaced : ∃ d, change = some (.replaced d)
    · -- the rename: the call was swapping, so the log was gone or could not be removed
      obtain ⟨d, rfl⟩ := hreplaced
      obtain ⟨hindex, hwal, -, hswapping, hcomplete⟩ := ht.does.effect
      have hrequest := ht.does.request
      refine .inr ⟨a.1, d, ⟨c', ht.after, ?_⟩, (ht.log _).mpr (.inr ⟨rfl, rfl⟩), hindex, ?_⟩
      · rw [hrequest]
        exact hcomplete hc
      · exact hkeep _ (hinv.swapping _ c ht.before hswapping)
    · have hindex : s'.dir.index = s.dir.index := ht.index fun d hd => hreplaced ⟨d, hd⟩
      rcases hinv.index with ⟨hold, hnone⟩ | ⟨i, d, hcomplete, hentry, hd, hwal⟩
      · refine .inl ⟨hindex.trans hold, fun i d hentry => ?_⟩
        rcases (ht.log _).mp hentry with hbefore | ⟨-, hchange⟩
        · exact hnone i d hbefore
        · exact hreplaced ⟨d, hchange⟩
      · have hrequest : Complete o c.request d → Complete o c'.request d := by
          rw [ht.does.request]
          exact id
        exact .inr ⟨i, d, ht.keeps (P := fun c => Complete o c.request d) hrequest hcomplete, hlog _ hentry,
          hindex.trans hd, hkeep i hwal⟩
  · rcases hinv.wal with hold | ⟨hnone, i, hi⟩
    · have heffect := ht.does.effect
      match change, heffect, ht.log with
      | none, h, _ => exact .inl (h.2.trans hold)
      | some .dropped, h, hentries => exact .inr ⟨h.2.1, a.1, (hentries _).mpr (.inr ⟨rfl, rfl⟩)⟩
      | some .kept, h, _ => exact .inl (h.2.1.trans hold)
      | some (.replaced d), h, _ => exact .inl (h.2.1.trans hold)
    · exact .inr ⟨ht.wal_none hnone, i, hlog _ hi⟩

/-- The calls have not begun. -/
def Installs.Fresh (s : Installs Body Wal) : Prop := s.log = [] ∧ ∀ c ∈ s.calls, c.phase = .start

theorem inv_of_fresh (h : s₀.Fresh) : Installs.Inv o s₀ s₀ := by
  have hphase : ∀ (i : ℕ) (c : Call Body), s₀.calls[i]? = some c → c.phase = .start :=
    fun i c hc => h.2 c (List.mem_of_getElem? hc)
  refine ⟨fun i c hc => ?_, fun i c hc hswapping => ?_, fun i d hentry => ?_, fun i hentry => ?_, .inl ⟨rfl, ?_⟩, .inl rfl⟩
  · unfold Call.Holds
    rw [hphase i c hc]
    trivial
  · have hc := hphase i c hc
    rcases hswapping with h | h
    · rw [hc] at h
      cases h
    · rw [hc] at h
      cases h
  · rw [h.1] at hentry
    cases hentry
  · rw [h.1] at hentry
    cases hentry
  · intro i d hentry
    rw [h.1] at hentry
    cases hentry

theorem inv_of_run {as : List (ℕ × Event)} (hfresh : s₀.Fresh) (h : run (Installs.step o) s₀ as = some s) :
    Installs.Inv o s₀ s :=
  run_invariant (fun hinv hstep => inv_step hinv hstep) (inv_of_fresh hfresh) h

/-! ### What a reader finds -/

/-- The database that a reader opens: `index.db` with the transactions in its log. -/
def opened (o : Outside Body Wal) (dir : Dir Body Wal) : Option (Database Body) :=
  match dir.wal with
  | some wal => dir.index.map (o.replay wal)
  | none => dir.index

/-- The reader finds what was there before, or a complete snapshot of one of the calls. -/
def AllOrNothing (o : Outside Body Wal) (s₀ s : Installs Body Wal) : Prop :=
  opened o s.dir = opened o s₀.dir ∨ ∃ c ∈ s.calls, ∃ d, Complete o c.request d ∧ opened o s.dir = some d

theorem keeps_of_run {P : Call Body → Prop} {as : List (ℕ × Event)} {i : ℕ}
    (hP : ∀ {dir dir' : Dir Body Wal} {c c' change}, Does o dir dir' c c' change → P c → P c')
    (hi : ∃ c, s.calls[i]? = some c ∧ P c) (h : run (Installs.step o) s as = some s') :
    ∃ c, s'.calls[i]? = some c ∧ P c := by
  refine run_invariant (I := fun s => ∃ c, s.calls[i]? = some c ∧ P c) (fun hI hstep => ?_) hi h
  obtain ⟨c, c', change, ht⟩ := turn_of_step hstep
  exact ht.keeps (hP ht.does) hI

/-- No operation of a call that returned an error changed `index.db`, nor its log unless the rename is what failed. -/
theorem unchanged_of_failed {as : List (ℕ × Event)} {i : ℕ} (hc : s.calls[i]? = some c) (hfailed : c.phase = .failed)
    (hstep : Installs.step o s₀ (i, e) = some s') (hrest : run (Installs.step o) s' as = some s) :
    s'.dir.index = s₀.dir.index ∧ (c.failedAt ≠ some .rename → s'.dir.wal = s₀.dir.wal) := by
  obtain ⟨c₁, c₁', change, ht⟩ := turn_of_step hstep
  have hnot : ¬c₁'.Swapped := by
    intro hswapped
    obtain ⟨c₂, hc₂, h⟩ := keeps_of_run (fun hdoes => hdoes.swapped) ⟨c₁', ht.after, hswapped⟩ hrest
    obtain rfl : c = c₂ := Option.some_inj.mp (hc.symm.trans hc₂)
    unfold Call.Swapped at h
    rw [hfailed] at h
    exact h
  refine ⟨ht.index fun d hd => ?_, fun hnotRename => ?_⟩
  · have heffect := ht.does.effect
    rw [hd] at heffect
    exact hnot heffect.2.2.1
  · have heffect := ht.does.effect
    match change, heffect with
    | none, h => exact h.2
    | some .kept, h => exact h.2.1
    | some (.replaced d), h => exact h.2.1
    | some .dropped, h =>
      obtain ⟨c₂, hc₂, hafter⟩ := keeps_of_run (fun hdoes => hdoes.afterDrop) ⟨c₁', ht.after, h.2.2⟩ hrest
      obtain rfl : c = c₂ := Option.some_inj.mp (hc.symm.trans hc₂)
      unfold Call.AfterDrop at hafter
      rw [hfailed] at hafter
      exact absurd hafter hnotRename

/-- At every moment a reader finds the old database; or, once a call has removed its log, the old `index.db` without it;
or a complete snapshot, beside which the old log stays only where the call that put it there could not remove it. With
no log at the start that is all or nothing. A call that returns an error has changed nothing of it, unless what failed
is the rename. -/
theorem install_swaps {as : List (ℕ × Event)} (hfresh : s₀.Fresh) (h : run (Installs.step o) s₀ as = some s) :
    (opened o s.dir = opened o s₀.dir ∨
      (s.dir.index = s₀.dir.index ∧ s.dir.wal = none ∧ ∃ i, (i, .dropped) ∈ s.log) ∨
      (s.Swapped o ∧ (s.dir.wal = none ∨ s.dir.wal = s₀.dir.wal))) ∧
    (s₀.dir.wal = none → AllOrNothing o s₀ s) ∧
    ∀ i c, s.calls[i]? = some c → c.phase = .failed → ∀ before e after s₁ s₂, as = before ++ (i, e) :: after →
      run (Installs.step o) s₀ before = some s₁ → Installs.step o s₁ (i, e) = some s₂ →
      s₂.dir.index = s₁.dir.index ∧ (c.failedAt ≠ some .rename → s₂.dir.wal = s₁.dir.wal) := by
  have hinv : Installs.Inv o s₀ s := inv_of_run hfresh h
  refine ⟨?_, fun hwal₀ => ?_, ?_⟩
  · rcases hinv.index with ⟨hindex, -⟩ | hswapped
    · rcases hinv.wal with hwal | ⟨hnone, hdropped⟩
      · left
        unfold opened
        rw [hindex, hwal]
      · exact .inr (.inl ⟨hindex, hnone, hdropped⟩)
    · exact .inr (.inr ⟨hswapped, (hinv.wal.imp_right And.left).symm⟩)
  · have hwal : s.dir.wal = none := by
      rcases hinv.wal with hwal | ⟨hnone, -⟩
      · exact hwal.trans hwal₀
      · exact hnone
    rcases hinv.index with ⟨hindex, -⟩ | ⟨i, d, ⟨c, hc, hcomplete⟩, -, hindex, -⟩
    · left
      unfold opened
      rw [hwal, hwal₀]
      exact hindex
    · refine .inr ⟨c, List.mem_of_getElem? hc, d, hcomplete, ?_⟩
      unfold opened
      rw [hwal]
      exact hindex
  · rintro i c hc hfailed before e after s₁ s₂ rfl hbefore hstep
    -- a call that failed took its last step there, and nothing of it came later
    obtain ⟨t, ht, hrun⟩ := run_append_eq_some.mp h
    obtain rfl : s₁ = t := Option.some_inj.mp (hbefore.symm.trans ht)
    obtain ⟨t, ht, hrest⟩ := run_cons_eq_some.mp hrun
    obtain rfl : s₂ = t := Option.some_inj.mp (hstep.symm.trans ht)
    exact unchanged_of_failed hc hfailed hstep hrest

/-- An operation of a call that is alone and leaves the directory as it is. -/
theorem run_alone_cons {as : List (ℕ × Event)} {log : List (ℕ × Change Body)}
    (h : c.step o dir .ok = some (dir, c', none)) :
    run (Installs.step o) ⟨dir, [c], log⟩ ((0, .ok) :: as) = run (Installs.step o) ⟨dir, [c'], log⟩ as := by
  simp [run, Installs.step, h]

/-- The operations of a call that is alone, up to the swap, when they all succeed. -/
theorem run_to_swap (hurl : ("https://".toList.isPrefixOf r.url || isFileUrl r.url) = true)
    (hcap : ¬(!isFileUrl r.url && decide (maxCompressedBytes < r.artifact.length)) = true) (h : Validated o r d) :
    run (Installs.step o) ⟨dir, [⟨r, .start, none, none, none⟩], []⟩ (List.replicate 9 (0, .ok)) =
      some ⟨dir, [⟨r, .dropWal, some r.artifact, some (.opened { d with
        metaTable := insertAll [(metaSourceUrl, r.url), (metaFetchedAt, r.now)] d.metaTable } []), none⟩], []⟩ := by
  obtain ⟨bytes, ⟨hverified, hmagic, hdecoded⟩, hopen, hvalid⟩ := h
  have hstart : Call.step o dir ⟨r, .start, none, none, none⟩ .ok =
      some (dir, ⟨r, .download, none, none, none⟩, none) := if_pos hurl
  have hdownload : Call.step o dir ⟨r, .download, none, none, none⟩ .ok =
      some (dir, ⟨r, .checksum, some r.artifact, none, none⟩, none) := if_neg hcap
  have hchecksum : Call.step o dir ⟨r, .checksum, some r.artifact, none, none⟩ .ok =
      some (dir, ⟨r, .magic, some r.artifact, none, none⟩, none) := if_pos hverified
  have hmagic : Call.step o dir ⟨r, .magic, some r.artifact, none, none⟩ .ok =
      some (dir, ⟨r, .decompress, some r.artifact, none, none⟩, none) := if_pos hmagic
  have hdecompress : Call.step o dir ⟨r, .decompress, some r.artifact, none, none⟩ .ok =
      some (dir, ⟨r, .validate, some r.artifact, some (.raw bytes), none⟩, none) := by
    simp only [Call.step, Option.getD_some, hdecoded, if_true]
  have hvalidate : Call.step o dir ⟨r, .validate, some r.artifact, some (.raw bytes), none⟩ .ok =
      some (dir, ⟨r, .sourceUrl, some r.artifact, some (.opened d []), none⟩, none) := by
    simp only [Call.step, hopen, hvalid, if_true]
  simp only [List.replicate]
  rw [run_alone_cons hstart, run_alone_cons hdownload, run_alone_cons hchecksum, run_alone_cons hmagic,
    run_alone_cons hdecompress, run_alone_cons hvalidate]
  rfl

def ascii (text : String) : Bytes := text.toList.map fun c => c.toNat.toUInt8

/-- An SQLite file of two pages, one row of `meta` in it: the bytes, and how many zeros are behind them. -/
def sampleSegments : List (Bytes × ℕ) :=
  [(ascii "SQLite format 3" ++ [0, 2, 0, 1, 1, 0, 64, 32, 32, 0, 0, 0, 2, 0, 0, 0, 2], 11), ([1, 0, 0, 0, 4], 11), ([1], 35),
    ([2, 0, 46, 122, 112, 13, 0, 0, 0, 1, 1, 151, 0, 1, 151], 297),
    ([103, 1, 7, 23, 21, 21, 1, 129, 49] ++ ascii "tablemetameta" ++ [2] ++
      ascii "CREATE TABLE meta(key TEXT PRIMARY KEY NOT NULL,value TEXT NOT NULL) WITHOUT ROWID" ++
      [10, 0, 0, 0, 1, 1, 229, 0, 1, 229], 475),
    ([26, 3, 57, 15] ++ ascii "snapshot_source_commit" ++ ascii "1", 0)]

def sampleFile : Bytes := sampleSegments.flatMap fun s => s.1 ++ List.replicate s.2 0

/-- The header of a zstd block: whether it is the last one, raw (0) or one byte that is repeated (1), and its size. -/
def blockHeader (last kind size : ℕ) : Bytes :=
  let header := last + 2 * kind + 8 * size
  [header, header / 2 ^ 8, header / 2 ^ 16].map Nat.toUInt8

/-- The frame that zstd decodes to the file. -/
def sampleFrame : Bytes :=
  zstdMagic ++ [96, 0, 3] ++ sampleSegments.flatMap fun s =>
    if s.2 = 0 then blockHeader 1 0 s.1.length ++ s.1
    else blockHeader 0 0 s.1.length ++ s.1 ++ blockHeader 0 1 s.2 ++ [0]

/-- A snapshot of one row, and a log that carries a change of the body. -/
def sampleOutside : Outside ℕ Unit where
  blake3 := fun _ => []
  decode := fun artifact => if artifact = sampleFrame then ([sampleFile], true) else ([], false)
  openFile := fun file => if file = sampleFile then some ⟨AList.insert metaSourceCommit ['1'] ∅, 7⟩ else none
  replay := fun _ d => { d with body := d.body + 1 }

def sampleRequest : Request := ⟨"file:///s".toList, none, sampleFrame, none, ['0']⟩

/-- An old database with a log beside it, and one call. -/
def sampleStart : Installs ℕ Unit where
  dir := ⟨some ⟨∅, 3⟩, some (), true⟩
  calls := [⟨sampleRequest, .start, none, none, none⟩]
  log := []

theorem decompress_sample :
    decompressWithCap sampleOutside.decode sampleFrame maxDecompressedBytes = (sampleFile, true) := by
  have hdecode : sampleOutside.decode sampleFrame = ([sampleFile], true) := by simp only [sampleOutside, if_true]
  have hlength : sampleFile.length = 1024 := by decide +kernel
  have hcap : ¬maxDecompressedBytes < 0 + sampleFile.length := by
    rw [hlength]
    decide
  rw [decompressWithCap, hdecode]
  simp only [writeCapped, if_neg hcap, List.append_nil, Bool.and_true]

theorem sampleStart_run : ∃ d : Database ℕ, Complete sampleOutside sampleRequest d ∧
    run (Installs.step sampleOutside) sampleStart (List.replicate 9 (0, .ok)) =
      some ⟨sampleStart.dir, [⟨sampleRequest, .dropWal, some sampleFrame, some (.opened d []), none⟩], []⟩ := by
  have hschema : metaSchemaVersion ≠ metaSourceCommit := fun h => absurd (String.toList_inj.mp h) (by decide)
  have htool : metaToolVersion ≠ metaSourceCommit := fun h => absurd (String.toList_inj.mp h) (by decide)
  have hvalid : validate (⟨AList.insert metaSourceCommit ['1'] ∅, 7⟩ : Database ℕ) = true := by
    unfold validate
    dsimp only
    rw [AList.lookup_insert_ne hschema, AList.lookup_insert, AList.lookup_insert_ne htool]
    rfl
  have hverified : verifyChecksumImpl sampleOutside.blake3 sampleRequest.url sampleRequest.artifact none none = true := by
    decide
  have hopen : sampleOutside.openFile sampleFile = some ⟨AList.insert metaSourceCommit ['1'] ∅, 7⟩ := by
    simp only [sampleOutside, if_true]
  have h : Validated sampleOutside sampleRequest ⟨AList.insert metaSourceCommit ['1'] ∅, 7⟩ :=
    ⟨sampleFile, ⟨hverified, rfl, decompress_sample⟩, hopen, hvalid⟩
  exact ⟨_, complete_of_validated h, run_to_swap (by decide) (by decide) h⟩

theorem install_swaps_sample : ∃ s, run (Installs.step sampleOutside) sampleStart (List.replicate 12 (0, .ok)) = some s ∧
    s.Swapped sampleOutside := by
  obtain ⟨d, hcomplete, hrun⟩ := sampleStart_run
  have hswap : run (Installs.step sampleOutside) sampleStart (List.replicate 9 (0, .ok) ++ List.replicate 3 (0, .ok)) =
      some _ := run_append_eq_some.mpr ⟨_, hrun, rfl⟩
  have hsource := complete_source hcomplete
  refine ⟨_, hswap, ?_⟩
  rcases (install_swaps ⟨rfl, by simp [sampleStart]⟩ hswap).1 with h | ⟨h, -, -⟩ | ⟨h, -⟩
  · obtain rfl := Option.some_inj.mp h
    cases hsource
  · obtain rfl := Option.some_inj.mp h
    cases hsource
  · exact h

/-- The call removes the log and then cannot rename: a reader finds the old database without the log. -/
theorem install_not_allOrNothing : ∃ s, run (Installs.step sampleOutside) sampleStart
      (List.replicate 9 (0, .ok) ++ [(0, .ok), (0, .ok), (0, .fail []), (0, .ok), (0, .ok), (0, .ok), (0, .ok), (0, .ok)]) =
        some s ∧
    (∀ c ∈ s.calls, c.phase = .failed) ∧ ¬AllOrNothing sampleOutside sampleStart s := by
  obtain ⟨d, -, hrun⟩ := sampleStart_run
  refine ⟨_, run_append_eq_some.mpr ⟨_, hrun, rfl⟩, ?_, ?_⟩
  · intro c hc
    obtain rfl := List.mem_singleton.mp hc
    rfl
  · rintro (h | ⟨c, hc, d, hcomplete, h⟩)
    · exact absurd (congrArg Database.body (Option.some_inj.mp h)) (by decide)
    · have hsource := complete_source hcomplete
      obtain rfl := Option.some_inj.mp h
      cases hsource

end CodeGraph.Snapshot.Install
