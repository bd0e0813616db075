import CodeGraph.Pipeline.InFlight

/-!
# A live run is never reported dead, and a dead one is never forgotten

Three stages.

**The statements.** `mem_tokens_appendToken`, `mem_tokens_retireToken` and `tokens_dropEmpty` say what
each statement does to the set of tokens the marker holds. The `UPDATE` need not remove every
occurrence of its token (two of them next to each other share a space), but it touches no other.

**One step.** `Change s s' p c` collects what a step of process `p` can do to the state, with `c` the
process afterwards; `step_change` derives it for every action, and `Inv.change` the invariant from it.

**Runs.** `inv_of_run` is the invariant of every reachable state. A run that crashed stays in the
marker by a second, smaller invariant (`Orphan`), which every step but the call of a retire of its
token preserves.
-/

namespace CodeGraph.Pipeline.InFlight

open CodeGraph.Lib

variable {t u : Token} {m : Option Text}

/-! ### The statements on the marker -/

private theorem isWhitespace_space : isWhitespace ' ' = true := by decide

theorem mem_splitWhitespace {v : Text} : t ∈ splitWhitespace v ↔ t.text ∈ words isWhitespace v := by
  unfold splitWhitespace
  constructor
  · intro h
    obtain ⟨⟨w, hw⟩, -, rfl⟩ := List.mem_map.mp h
    exact hw
  · intro h
    exact List.mem_map.mpr ⟨⟨t.text, h⟩, List.mem_attach _ _, rfl⟩

theorem words_sqlTrim (v : Text) : words isWhitespace (sqlTrim v) = words isWhitespace v := by
  refine words_trim (fun c hc => ?_) v
  have hc' : c = ' ' := by simpa using hc
  rw [hc']
  exact isWhitespace_space

theorem mem_tokens_appendToken : t ∈ tokens (appendToken u m) ↔ t ∈ tokens m ∨ t = u := by
  have hu : words isWhitespace u.text = [u.text] := words_eq_singleton u.ne_nil u.solid
  have htext : t.text = u.text ↔ t = u := by
    refine ⟨fun h => ?_, fun h => h ▸ rfl⟩
    cases t
    cases u
    simpa using h
  unfold tokens
  rw [mem_splitWhitespace, mem_splitWhitespace, ← htext]
  cases m with
  | none => simp [appendToken, hu]
  | some v =>
    show t.text ∈ words isWhitespace (v ++ ' ' :: u.text) ↔ _
    rw [words_append_sep isWhitespace_space, hu, List.mem_append, List.mem_singleton]
    rfl

/-- The text the `UPDATE` rewrites has the words of the marker's value. -/
private theorem words_spaced (v : Text) :
    words isWhitespace (' ' :: (v ++ [' '])) = words isWhitespace v := by
  rw [words_sep_cons isWhitespace_space, words_append_singleton_sep isWhitespace_space]

/-- **The `UPDATE` of `retire` removes no other token.** -/
theorem mem_tokens_retireToken (hne : t ≠ u) (h : t ∈ tokens m) : t ∈ tokens (retireToken u m) := by
  cases m with
  | none => exact h
  | some v =>
    have htext : t.text ≠ u.text := by
      intro heq
      apply hne
      cases t
      cases u
      simpa using heq
    have hw : t.text ∈ words isWhitespace ([] ++ ' ' :: (v ++ [' '])) := by
      rw [List.nil_append, words_spaced]
      exact mem_splitWhitespace.mp h
    have hrw := replace_rewrites (' ' :: (u.text ++ [' '])) [' '] (' ' :: (v ++ [' ']))
    have hkept := mem_words_of_rewrites isWhitespace_space u.ne_nil u.solid htext hrw hw
    apply mem_splitWhitespace.mpr
    show t.text ∈ words isWhitespace (sqlTrim _)
    rw [words_sqlTrim]
    exact hkept

/-- The `UPDATE` of `retire` makes no token. -/
theorem mem_tokens_of_retireToken (h : t ∈ tokens (retireToken u m)) : t ∈ tokens m := by
  cases m with
  | none => exact h
  | some v =>
    have hw : t.text ∈ words isWhitespace (sqlTrim _) := mem_splitWhitespace.mp h
    rw [words_sqlTrim] at hw
    have hrw := replace_rewrites (' ' :: (u.text ++ [' '])) [' '] (' ' :: (v ++ [' ']))
    have hold := mem_words_of_mem_rewrites (a := []) isWhitespace_space hrw hw
    rw [List.nil_append, words_spaced] at hold
    exact mem_splitWhitespace.mpr hold

/-- The `DELETE` of `retire` removes a marker without tokens only. -/
theorem tokens_dropEmpty (m : Option Text) : tokens (dropEmpty m) = tokens m := by
  cases m with
  | none => rfl
  | some v =>
    by_cases hv : sqlTrim v = []
    · have hw : words isWhitespace v = [] := by rw [← words_sqlTrim, hv, words_nil]
      have hnil : tokens (some v) = [] := by
        apply List.eq_nil_iff_forall_not_mem.mpr
        intro t ht
        have ht' : t.text ∈ words isWhitespace v := mem_splitWhitespace.mp ht
        rw [hw] at ht'
        exact absurd ht' List.not_mem_nil
      have hl : dropEmpty (some v) = none := by simp [dropEmpty, hv]
      rw [hl, hnil]
      rfl
    · have hl : dropEmpty (some v) = some v := by simp [dropEmpty, hv]
      rw [hl]

/-! ### The invariant -/

/-- The operation is a `retire` that has not removed `t` yet. -/
def Op.Retires (t : Token) : Op → Prop
  | .retiring todo _ => t ∈ todo
  | _ => False

/-- `dead_runs` found `t` for this operation. -/
def Op.Knows (t : Token) : Op → Prop
  | .retiring todo none => t ∈ todo
  | .probed found => t ∈ found
  | _ => False

/-- The process has the exclusive lock. -/
def Op.Probes : Op → Prop
  | .probing | .probed _ => True
  | _ => False

/-- The process has an answer of `dead_runs` with `t` in it, or is about to get one. -/
def Proc.Knows (c : Proc) (t : Token) : Prop := (∃ ts ∈ c.dead, t ∈ ts) ∨ c.op.Knows t

/-- `begin` of the run `t` has returned and `finish` has not run its `UPDATE`. -/
def Proc.Marked (c : Proc) (t : Token) : Prop :=
  t ∈ c.marks ∨ c.op.mark = some t ∧ c.op.Retires t

variable {Pid : Type*} [DecidableEq Pid] {s s' : State Pid} {p : Pid} {c : Proc} {a : Action Pid}

/-- What holds in every reachable state. -/
structure Inv (s : State Pid) : Prop where
  held : ∀ p, (s.procs p).live ⊆ s.shared
  shared_used : s.shared ⊆ s.used
  marker_used : ∀ t ∈ tokens s.marker, t ∈ s.used
  exclusive_alone : s.exclusive ≠ none → s.shared = ∅
  probe_exclusive : ∀ p, (s.procs p).op.Probes → s.exclusive = some p
  own : ∀ p q t, t ∈ (s.procs p).live → t ∈ (s.procs q).live → p = q
  op_mark : ∀ p t, (s.procs p).op.mark = some t → t ∉ (s.procs p).marks
  known_used : ∀ p t, (s.procs p).Knows t → t ∈ s.used
  known_dead : ∀ p t, (s.procs p).Knows t → ∀ q, t ∉ (s.procs q).live
  finishing : ∀ p todo t, (s.procs p).op = .retiring todo (some t) → todo = [t] ∨ todo = []
  marked : ∀ p t, (s.procs p).Marked t → t ∈ tokens s.marker

/-- What one step of process `p`, which leaves it at `c`, can do to the state. -/
structure Change (s s' : State Pid) (p : Pid) (c : Proc) : Prop where
  procs : s'.procs = Function.update s.procs p c
  used : s.used ⊆ s'.used
  /-- A step lets go of no hold but those of the process's own runs. -/
  shared_kept : ∀ t ∈ s.shared, t ∈ s'.shared ∨ t ∈ (s.procs p).live
  shared_used : s'.shared ⊆ s'.used
  marker_used : ∀ t ∈ tokens s'.marker, t ∈ s'.used
  exclusive_alone : s'.exclusive ≠ none → s'.shared = ∅
  exclusive_kept : ∀ q, q ≠ p → s.exclusive = some q → s'.exclusive = some q
  probe_exclusive : c.op.Probes → s'.exclusive = some p
  held : c.live ⊆ s'.shared
  /-- A process gets a run only by naming a new one. -/
  live_own : ∀ t ∈ c.live, t ∈ (s.procs p).live ∨ t ∉ s.used
  op_mark : ∀ t, c.op.mark = some t → t ∉ c.marks
  /-- A token becomes known by being read with no shared hold open. -/
  known : ∀ t, c.Knows t → (s.procs p).Knows t ∨ t ∈ tokens s.marker ∧ s.shared = ∅
  finishing : ∀ todo t, c.op = .retiring todo (some t) → todo = [t] ∨ todo = []
  marked : ∀ t, c.Marked t → t ∈ tokens s'.marker
  /-- Only the `UPDATE` for a token removes it. -/
  marker_kept : ∀ t ∈ tokens s.marker, t ∈ tokens s'.marker ∨ (s.procs p).op.Retires t

theorem Op.mark_or_knows_of_retires (o : Op) (h : o.Retires t)
    (hf : ∀ todo u, o = .retiring todo (some u) → todo = [u] ∨ todo = []) :
    o.mark = some t ∨ o.Knows t := by
  match o, h with
  | .retiring todo none, h => exact .inr h
  | .retiring todo (some u), h =>
    rcases hf todo u rfl with rfl | rfl
    · have htu : t = u := List.mem_singleton.mp h
      exact .inl (by rw [htu, Op.mark])
    · exact absurd h List.not_mem_nil

theorem Proc.mem_live : t ∈ c.live ↔ t ∈ c.marks ∨ c.op.mark = some t := by
  unfold Proc.live
  rw [Finset.mem_union, Option.mem_toFinset, Option.mem_def]

theorem Proc.Marked.mem_live (h : c.Marked t) : t ∈ c.live := by
  rcases h with h | h
  · exact Proc.mem_live.mpr (.inl h)
  · exact Proc.mem_live.mpr (.inr h.1)

omit [DecidableEq Pid] in
/-- A token that process `p` is retiring belongs to no other process. -/
theorem Inv.not_live_of_retires (h : Inv s) {q : Pid} (hq : q ≠ p) (hr : (s.procs p).op.Retires t) :
    t ∉ (s.procs q).live := by
  rcases Op.mark_or_knows_of_retires _ hr (h.finishing p) with hm | hk
  · intro hl
    exact hq (h.own q p t hl (Proc.mem_live.mpr (.inr hm)))
  · exact h.known_dead p t (.inr hk) q

theorem Change.procs_self (hc : Change s s' p c) : s'.procs p = c := by rw [hc.procs, Function.update_self]

theorem Change.procs_other (hc : Change s s' p c) {q : Pid} (hq : q ≠ p) : s'.procs q = s.procs q := by
  rw [hc.procs, Function.update_of_ne hq]

/-- A run of another process keeps its hold: the step gave up those of `p` only. -/
theorem Change.shared_of_other (hc : Change s s' p c) (h : Inv s) {q : Pid} (hq : q ≠ p) (ht : t ∈ (s.procs q).live) :
    t ∈ s'.shared := by
  rcases hc.shared_kept t (h.held q ht) with h' | h'
  · exact h'
  · exact absurd (h.own q p t ht h') hq

/-- A run of `p` after the step is no run of another process. -/
theorem Change.not_live_of_other (hc : Change s s' p c) (h : Inv s) (ht : t ∈ c.live) {q : Pid} (hq : q ≠ p) :
    t ∉ (s.procs q).live := by
  intro htq
  rcases hc.live_own t ht with h' | h'
  · exact hq (h.own q p t htq h')
  · exact h' (h.shared_used (h.held q htq))

/-- Two processes have no run in common after the step: one of them is not `p`, and has what it had. -/
theorem Change.own (hc : Change s s' p c) (h : Inv s) {q r : Pid} (hqt : t ∈ (s'.procs q).live)
    (hrt : t ∈ (s'.procs r).live) : q = r := by
  by_cases hq : q = p <;> by_cases hr : r = p
  · rw [hq, hr]
  · rw [hq, hc.procs_self] at hqt
    rw [hc.procs_other hr] at hrt
    exact absurd hrt (hc.not_live_of_other h hqt hr)
  · rw [hc.procs_other hq] at hqt
    rw [hr, hc.procs_self] at hrt
    exact absurd hqt (hc.not_live_of_other h hrt hq)
  · rw [hc.procs_other hq] at hqt
    rw [hc.procs_other hr] at hrt
    exact h.own q r t hqt hrt

/-- A token that was known is no run of any process after the step. -/
theorem Change.not_live_of_knows (hc : Change s s' p c) (h : Inv s) {q : Pid} (hk : (s.procs q).Knows t) (r : Pid) :
    t ∉ (s'.procs r).live := by
  by_cases hr : r = p
  · rw [hr, hc.procs_self]
    intro ht
    rcases hc.live_own t ht with h' | h'
    · exact h.known_dead q t hk p h'
    · exact h' (h.known_used q t hk)
  · rw [hc.procs_other hr]
    exact h.known_dead q t hk r

/-- Nothing is live where nothing is held, and a token of the marker was in use already. -/
theorem Change.not_live_of_read (hc : Change s s' p c) (h : Inv s) (hm : t ∈ tokens s.marker) (hs : s.shared = ∅)
    (r : Pid) : t ∉ (s'.procs r).live := by
  have hnone (q : Pid) : t ∉ (s.procs q).live := by
    intro hl
    have hsh := h.held q hl
    rw [hs] at hsh
    exact absurd hsh (Finset.notMem_empty t)
  by_cases hr : r = p
  · rw [hr, hc.procs_self]
    intro hl
    rcases hc.live_own t hl with h' | h'
    · exact hnone p h'
    · exact h' (h.marker_used t hm)
  · rw [hc.procs_other hr]
    exact hnone r

/-- **The invariant survives a change.** Of each process either the change tells, or it is as it was. -/
theorem Inv.change (h : Inv s) (hc : Change s s' p c) : Inv s' := by
  constructor
  -- the locks
  case held =>
    intro q
    by_cases hq : q = p
    · rw [hq, hc.procs_self]
      exact hc.held
    · rw [hc.procs_other hq]
      exact fun t ht => hc.shared_of_other h hq ht
  case shared_used => exact hc.shared_used
  case marker_used => exact hc.marker_used
  case exclusive_alone => exact hc.exclusive_alone
  case probe_exclusive =>
    intro q hop
    by_cases hq : q = p
    · rw [hq, hc.procs_self] at hop
      rw [hq]
      exact hc.probe_exclusive hop
    · rw [hc.procs_other hq] at hop
      exact hc.exclusive_kept q hq (h.probe_exclusive q hop)
  -- the runs
  case own => exact fun q r t hqt hrt => hc.own h hqt hrt
  case op_mark =>
    intro q t
    by_cases hq : q = p
    · rw [hq, hc.procs_self]
      exact hc.op_mark t
    · rw [hc.procs_other hq]
      exact h.op_mark q t
  -- the tokens that a process takes for dead
  case known_used =>
    intro q t hk
    by_cases hq : q = p
    · rw [hq, hc.procs_self] at hk
      rcases hc.known t hk with h' | h'
      · exact hc.used (h.known_used p t h')
      · exact hc.used (h.marker_used t h'.1)
    · rw [hc.procs_other hq] at hk
      exact hc.used (h.known_used q t hk)
  case known_dead =>
    intro q t hk
    by_cases hq : q = p
    · rw [hq, hc.procs_self] at hk
      rcases hc.known t hk with h' | ⟨hm, hs⟩
      · exact hc.not_live_of_knows h h'
      · exact hc.not_live_of_read h hm hs
    · rw [hc.procs_other hq] at hk
      exact hc.not_live_of_knows h hk
  -- the marker
  case finishing =>
    intro q todo t
    by_cases hq : q = p
    · rw [hq, hc.procs_self]
      exact hc.finishing todo t
    · rw [hc.procs_other hq]
      exact h.finishing q todo t
  case marked =>
    intro q t hm
    by_cases hq : q = p
    · rw [hq, hc.procs_self] at hm
      exact hc.marked t hm
    · rw [hc.procs_other hq] at hm
      rcases hc.marker_kept t (h.marked q t hm) with h' | h'
      · exact h'
      · exact absurd hm.mem_live (h.not_live_of_retires hq h')

/-! ### Every step is a change -/

/-- The process an action is of. -/
def Action.pid : Action Pid → Pid
  | .takeShared p _ | .insert p | .finish p _ | .retire p _ | .update p | .delete p | .release p
  | .probe p | .read p | .answer p | .drop p _ | .fail p | .kill p => p

/-- A step that leaves the lock alone and may write the marker. -/
theorem Inv.change_of_statement (h : Inv s) {m : Option Text}
    (hused : ∀ t ∈ tokens m, t ∈ s.used) (hlive : c.live ⊆ (s.procs p).live)
    (hprobe : c.op.Probes → (s.procs p).op.Probes) (hop : ∀ t, c.op.mark = some t → t ∉ c.marks)
    (hknown : ∀ t, c.Knows t → (s.procs p).Knows t ∨ t ∈ tokens s.marker ∧ s.shared = ∅)
    (hfin : ∀ todo t, c.op = .retiring todo (some t) → todo = [t] ∨ todo = [])
    (hmarked : ∀ t, c.Marked t → t ∈ tokens m)
    (hkept : ∀ t ∈ tokens s.marker, t ∈ tokens m ∨ (s.procs p).op.Retires t) :
    Change s { s.setProc p c with marker := m } p c where
  procs := rfl
  used := fun _ ht => ht
  shared_kept := fun _ ht => .inl ht
  shared_used := h.shared_used
  marker_used := hused
  exclusive_alone := h.exclusive_alone
  exclusive_kept := fun _ _ hq => hq
  probe_exclusive := fun ho => h.probe_exclusive p (hprobe ho)
  held := fun _ ht => h.held p (hlive ht)
  live_own := fun _ ht => .inl (hlive ht)
  op_mark := hop
  known := hknown
  finishing := hfin
  marked := hmarked
  marker_kept := hkept

/-- A step that ends an operation: it lets go of the holds of some of the process's runs, or of the
exclusive lock. -/
theorem Inv.change_of_letGo (h : Inv s) {e : Option Pid} (gone : Finset Token)
    (hop : c.op = .idle) (hmarks : c.marks ⊆ (s.procs p).marks) (hgone : gone ⊆ (s.procs p).live)
    (hapart : ∀ t ∈ c.marks, t ∉ gone) (he : e = s.exclusive ∨ e = s.exclusiveWithout p)
    (hknown : ∀ t, c.Knows t → (s.procs p).Knows t) :
    Change s { s.setProc p c with shared := s.shared \ gone, exclusive := e } p c := by
  -- the process is idle, so what it holds is what it has marked
  have hlive : c.live = c.marks := by simp [Proc.live, hop, Op.mark]
  have hown : c.live ⊆ (s.procs p).live := by
    intro t ht
    rw [hlive] at ht
    exact Proc.mem_live.mpr (.inl (hmarks ht))
  constructor
  case procs => rfl
  case used => exact fun _ ht => ht
  case shared_kept =>
    intro t ht
    by_cases hg : t ∈ gone
    · exact .inr (hgone hg)
    · exact .inl (Finset.mem_sdiff.mpr ⟨ht, hg⟩)
  case shared_used => exact fun t ht => h.shared_used (Finset.mem_sdiff.mp ht).1
  case marker_used => exact h.marker_used
  -- the exclusive hold is alone, so nothing shared was there to let go
  case exclusive_alone =>
    intro hne
    have hex : s.exclusive ≠ none := by
      rcases he with rfl | rfl
      · exact hne
      · intro hn
        apply hne
        simp [State.exclusiveWithout, hn]
    show s.shared \ gone = ∅
    rw [h.exclusive_alone hex, Finset.empty_sdiff]
  case exclusive_kept =>
    intro q hq hx
    rcases he with rfl | rfl
    · exact hx
    · have hqp : ¬ s.exclusive = some p := by
        rw [hx, Option.some_inj]
        exact hq
      show s.exclusiveWithout p = some q
      rw [State.exclusiveWithout, if_neg hqp, hx]
  case probe_exclusive =>
    intro ho
    rw [hop] at ho
    exact ho.elim
  case held =>
    intro t ht
    refine Finset.mem_sdiff.mpr ⟨h.held p (hown ht), ?_⟩
    rw [hlive] at ht
    exact hapart t ht
  case live_own => exact fun t ht => .inl (hown ht)
  case op_mark =>
    intro t ht
    rw [hop] at ht
    exact absurd ht (by simp [Op.mark])
  case known => exact fun t ht => .inl (hknown t ht)
  case finishing =>
    intro todo t ht
    rw [hop] at ht
    exact absurd ht (by simp)
  case marked =>
    intro t ht
    rcases ht with ht | ht
    · exact h.marked p t (.inl (hmarks ht))
    · rw [hop] at ht
      exact ht.2.elim
  case marker_kept => exact fun t ht => .inl ht

theorem takeShared_change (h : Inv s) {t : Token}
    (hex : s.exclusive = none) (hfresh : t ∉ s.used) :
    Change s { s.setProc p { s.procs p with op := .beginning t } with
      shared := insert t s.shared, used := insert t s.used } p
      { s.procs p with op := .beginning t } := by
  have hlive : ∀ u, u ∈ Proc.live { s.procs p with op := .beginning t } →
      u ∈ (s.procs p).live ∨ u = t := by
    intro u hu
    rcases Proc.mem_live.mp hu with hm | hm
    · exact .inl (Proc.mem_live.mpr (.inl hm))
    · exact .inr (Option.some_inj.mp hm).symm
  constructor
  case procs => rfl
  case used => exact Finset.subset_insert t s.used
  case shared_kept => exact fun u hu => .inl (Finset.mem_insert_of_mem hu)
  case shared_used => exact Finset.insert_subset_insert t h.shared_used
  case marker_used => exact fun u hu => Finset.mem_insert_of_mem (h.marker_used u hu)
  case exclusive_alone => exact fun hne => absurd hex hne
  case exclusive_kept => exact fun _ _ hq => hq
  case probe_exclusive => exact fun ho => ho.elim
  case held =>
    intro u hu
    rcases hlive u hu with hl | rfl
    · exact Finset.mem_insert_of_mem (h.held p hl)
    · exact Finset.mem_insert_self u s.shared
  case live_own =>
    intro u hu
    rcases hlive u hu with hl | rfl
    · exact .inl hl
    · exact .inr hfresh
  -- the token is fresh, so it is nobody's mark yet
  case op_mark =>
    intro u hu hm
    have hut : t = u := Option.some_inj.mp hu
    rw [hut] at hfresh
    exact hfresh (h.shared_used (h.held p (Proc.mem_live.mpr (.inl hm))))
  case known =>
    intro u hu
    rcases hu with hd | hk
    · exact .inl (.inl hd)
    · exact hk.elim
  case finishing => exact fun todo u hu => absurd hu (by simp)
  case marked =>
    intro u hu
    rcases hu with hm | hm
    · exact h.marked p u (.inl hm)
    · exact hm.2.elim
  case marker_kept => exact fun u hu => .inl hu

theorem probe_change (h : Inv s) (hsh : s.shared = ∅)
    (hex : s.exclusive = none) :
    Change s { s.setProc p { s.procs p with op := .probing } with exclusive := some p } p
      { s.procs p with op := .probing } := by
  have hlive : ∀ u, u ∈ Proc.live { s.procs p with op := .probing } → u ∈ (s.procs p).live := by
    intro u hu
    rcases Proc.mem_live.mp hu with hm | hm
    · exact Proc.mem_live.mpr (.inl hm)
    · exact absurd hm (by simp [Op.mark])
  constructor
  case procs => rfl
  case used => exact fun _ hu => hu
  case shared_kept => exact fun _ hu => .inl hu
  case shared_used => exact h.shared_used
  case marker_used => exact h.marker_used
  -- nothing is shared, which is what the probe asks
  case exclusive_alone => exact fun _ => hsh
  case exclusive_kept =>
    intro q _ hq
    rw [hex] at hq
    exact absurd hq (by simp)
  case probe_exclusive => exact fun _ => rfl
  case held => exact fun u hu => h.held p (hlive u hu)
  case live_own => exact fun u hu => .inl (hlive u hu)
  case op_mark => exact fun u hu => absurd hu (by simp [Op.mark])
  case known =>
    intro u hu
    rcases hu with hd | hk
    · exact .inl (.inl hd)
    · exact hk.elim
  case finishing => exact fun todo u hu => absurd hu (by simp)
  case marked =>
    intro u hu
    rcases hu with hm | hm
    · exact h.marked p u (.inl hm)
    · exact hm.2.elim
  case marker_kept => exact fun u hu => .inl hu

theorem insert_change (h : Inv s) {t : Token} (hop : (s.procs p).op = .beginning t) :
    Change s { s.setProc p { s.procs p with op := .idle, marks := insert t (s.procs p).marks } with
      marker := appendToken t s.marker } p
      { s.procs p with op := .idle, marks := insert t (s.procs p).marks } := by
  have ht : t ∈ (s.procs p).live := Proc.mem_live.mpr (.inr (by rw [hop, Op.mark]))
  apply h.change_of_statement
  · intro u hu
    rcases mem_tokens_appendToken.mp hu with hu | rfl
    · exact h.marker_used u hu
    · exact h.shared_used (h.held p ht)
  · intro u hu
    rcases Proc.mem_live.mp hu with hm | hm
    · rcases Finset.mem_insert.mp hm with rfl | hm
      · exact ht
      · exact Proc.mem_live.mpr (.inl hm)
    · exact absurd hm (by simp [Op.mark])
  · exact fun ho => ho.elim
  · exact fun u hu => absurd hu (by simp [Op.mark])
  · intro u hu
    rcases hu with hd | hk
    · exact .inl (.inl hd)
    · exact hk.elim
  · exact fun todo u hu => absurd hu (by simp)
  · intro u hu
    rcases hu with hm | hm
    · rcases Finset.mem_insert.mp hm with rfl | hm
      · exact mem_tokens_appendToken.mpr (.inr rfl)
      · exact mem_tokens_appendToken.mpr (.inl (h.marked p u (.inl hm)))
    · exact hm.2.elim
  · exact fun u hu => .inl (mem_tokens_appendToken.mpr (.inl hu))

theorem finish_change (h : Inv s) {t : Token} (ht : t ∈ (s.procs p).marks) :
    Change s (s.setProc p { s.procs p with
      op := .retiring [t] (some t), marks := (s.procs p).marks.erase t }) p
      { s.procs p with op := .retiring [t] (some t), marks := (s.procs p).marks.erase t } := by
  apply h.change_of_statement (m := s.marker)
  · exact h.marker_used
  · intro u hu
    rcases Proc.mem_live.mp hu with hm | hm
    · exact Proc.mem_live.mpr (.inl (Finset.mem_of_mem_erase hm))
    · have htu : t = u := Option.some_inj.mp hm
      exact Proc.mem_live.mpr (.inl (htu ▸ ht))
  · exact fun ho => ho.elim
  · intro u hu
    have htu : t = u := Option.some_inj.mp hu
    rw [← htu]
    exact Finset.notMem_erase t _
  · intro u hu
    rcases hu with hd | hk
    · exact .inl (.inl hd)
    · exact hk.elim
  · intro todo u hu
    injection hu with h1 h2
    left
    rw [← h1, Option.some_inj.mp h2]
  · intro u hu
    rcases hu with hm | hm
    · exact h.marked p u (.inl (Finset.mem_of_mem_erase hm))
    · have htu : t = u := Option.some_inj.mp hm.1
      exact h.marked p u (.inl (htu ▸ ht))
  · exact fun u hu => .inl hu

theorem retire_change (h : Inv s) {ts : List Token} (hts : ts ∈ (s.procs p).dead) :
    Change s (s.setProc p { s.procs p with op := .retiring ts none }) p
      { s.procs p with op := .retiring ts none } := by
  apply h.change_of_statement (m := s.marker)
  · exact h.marker_used
  · intro u hu
    rcases Proc.mem_live.mp hu with hm | hm
    · exact Proc.mem_live.mpr (.inl hm)
    · exact absurd hm (by simp [Op.mark])
  · exact fun ho => ho.elim
  · exact fun u hu => absurd hu (by simp [Op.mark])
  · intro u hu
    rcases hu with hd | hk
    · exact .inl (.inl hd)
    · exact .inl (.inl ⟨ts, hts, hk⟩)
  · exact fun todo u hu => absurd hu (by simp)
  · intro u hu
    rcases hu with hm | hm
    · exact h.marked p u (.inl hm)
    · exact absurd hm.1 (by simp [Op.mark])
  · exact fun u hu => .inl hu

theorem update_change (h : Inv s) {t : Token} {ts : List Token} {f : Option Token}
    (hop : (s.procs p).op = .retiring (t :: ts) f) :
    Change s { s.setProc p { s.procs p with op := .retiring ts f } with
      marker := retireToken t s.marker } p { s.procs p with op := .retiring ts f } := by
  have hret : (s.procs p).op.Retires t := by
    rw [hop]
    exact List.mem_cons_self
  have hmark : (s.procs p).op.mark = f := by rw [hop, Op.mark]
  apply h.change_of_statement
  · exact fun u hu => h.marker_used u (mem_tokens_of_retireToken hu)
  · intro u hu
    rcases Proc.mem_live.mp hu with hm | hm
    · exact Proc.mem_live.mpr (.inl hm)
    · exact Proc.mem_live.mpr (.inr (hmark.trans hm))
  · exact fun ho => ho.elim
  · exact fun u hu => h.op_mark p u (hmark.trans hu)
  · intro u hu
    rcases hu with hd | hk
    · exact .inl (.inl hd)
    · cases f with
      | none =>
        refine .inl (.inr ?_)
        rw [hop]
        exact List.mem_cons_of_mem t hk
      | some v => exact hk.elim
  · intro todo u hu
    injection hu with h1 h2
    rw [h2] at hop
    rcases h.finishing p (t :: ts) u hop with hs | hs
    · right
      rw [← h1]
      exact (List.cons.inj hs).2
    · exact absurd hs (by simp)
  · intro u hu
    -- The token removed is the finishing mark, or that of a dead run: never another mark.
    have hmarks : ∀ v ∈ (s.procs p).marks, v ≠ t := by
      rintro v hv rfl
      rcases Op.mark_or_knows_of_retires _ hret (h.finishing p) with hm | hk
      · exact h.op_mark p v hm hv
      · exact h.known_dead p v (.inr hk) p (Proc.mem_live.mpr (.inl hv))
    rcases hu with hm | ⟨hm, hr⟩
    · exact mem_tokens_retireToken (hmarks u hm) (h.marked p u (.inl hm))
    · -- `finish` retires one token, so nothing is left to retire after it.
      have hf : f = some u := hm
      rw [hf] at hop
      rcases h.finishing p (t :: ts) u hop with hs | hs
      · have hts : ts = [] := (List.cons.inj hs).2
        have hr' : u ∈ ts := hr
        rw [hts] at hr'
        exact absurd hr' List.not_mem_nil
      · exact absurd hs (by simp)
  · intro u hu
    by_cases hut : u = t
    · exact .inr (hut ▸ hret)
    · exact .inl (mem_tokens_retireToken hut hu)

/-- The `DELETE`: the call is over, or what is left of it is to drop the mark. -/
theorem delete_change (h : Inv s) {f : Option Token} {o : Op}
    (hop : (s.procs p).op = .retiring [] f) (ho : o = .idle ∧ f = none ∨ ∃ t, o = .releasing t ∧ f = some t) :
    Change s { s.setProc p { s.procs p with op := o } with marker := dropEmpty s.marker } p
      { s.procs p with op := o } := by
  have hmark : o.mark = f := by
    rcases ho with ⟨rfl, rfl⟩ | ⟨t, rfl, rfl⟩
    · rfl
    · rfl
  -- an operation that is over probes, knows and retires nothing
  have hquiet : ¬ o.Probes ∧ (∀ t, ¬ o.Knows t) ∧ (∀ t, ¬ o.Retires t) ∧
      ∀ todo t, o ≠ .retiring todo (some t) := by
    rcases ho with ⟨rfl, rfl⟩ | ⟨t, rfl, rfl⟩
    · simp [Op.Probes, Op.Knows, Op.Retires]
    · simp [Op.Probes, Op.Knows, Op.Retires]
  have hold : (s.procs p).op.mark = f := by rw [hop, Op.mark]
  apply h.change_of_statement
  · intro u hu
    rw [tokens_dropEmpty] at hu
    exact h.marker_used u hu
  · intro u hu
    rcases Proc.mem_live.mp hu with hm | hm
    · exact Proc.mem_live.mpr (.inl hm)
    · exact Proc.mem_live.mpr (.inr (hold.trans (hmark.symm.trans hm)))
  · exact fun hp => absurd hp hquiet.1
  · exact fun u hu => h.op_mark p u (hold.trans (hmark.symm.trans hu))
  · intro u hu
    rcases hu with hd | hk
    · exact .inl (.inl hd)
    · exact absurd hk (hquiet.2.1 u)
  · exact fun todo u hu => absurd hu (hquiet.2.2.2 todo u)
  · intro u hu
    rw [tokens_dropEmpty]
    rcases hu with hm | hm
    · exact h.marked p u (.inl hm)
    · exact absurd hm.2 (hquiet.2.2.1 u)
  · intro u hu
    rw [tokens_dropEmpty]
    exact .inl hu

theorem read_change (h : Inv s) (hop : (s.procs p).op = .probing) :
    Change s (s.setProc p { s.procs p with op := .probed (tokens s.marker) }) p
      { s.procs p with op := .probed (tokens s.marker) } := by
  have hex : s.exclusive = some p := h.probe_exclusive p (by rw [hop]; trivial)
  have hsh : s.shared = ∅ := h.exclusive_alone (by rw [hex]; simp)
  apply h.change_of_statement (m := s.marker)
  · exact h.marker_used
  · intro u hu
    rcases Proc.mem_live.mp hu with hm | hm
    · exact Proc.mem_live.mpr (.inl hm)
    · exact absurd hm (by simp [Op.mark])
  · intro _
    rw [hop]
    trivial
  · exact fun u hu => absurd hu (by simp [Op.mark])
  · intro u hu
    rcases hu with hd | hk
    · exact .inl (.inl hd)
    · exact .inr ⟨hk, hsh⟩
  · exact fun todo u hu => absurd hu (by simp)
  · intro u hu
    rcases hu with hm | hm
    · exact h.marked p u (.inl hm)
    · exact hm.2.elim
  · exact fun u hu => .inl hu

theorem Proc.knows_of_dead {ts : List (List Token)} {ms : Finset Token}
    (h : Proc.Knows ⟨.idle, ms, ts⟩ t) : ∃ l ∈ ts, t ∈ l := by
  rcases h with hd | hk
  · exact hd
  · exact hk.elim

/-- A finished run lets go of its hold. -/
theorem release_change (h : Inv s) {t : Token} (hmark : (s.procs p).op.mark = some t) :
    Change s { s.setProc p { s.procs p with op := .idle } with shared := s.shared.erase t } p
      { s.procs p with op := .idle } := by
  have hc : Change s _ p { s.procs p with op := .idle } :=
    @Inv.change_of_letGo _ _ s p { s.procs p with op := .idle } h s.exclusive {t} rfl (Finset.Subset.refl _)
      (Finset.singleton_subset_iff.mpr (Proc.mem_live.mpr (.inr hmark)))
      (fun u hu hut => h.op_mark p t hmark (Finset.mem_singleton.mp hut ▸ hu)) (.inl rfl)
      (fun u hu => .inl (Proc.knows_of_dead hu))
  rwa [Finset.sdiff_singleton_eq_erase] at hc

/-- A probe ends: what it found is known from then on. -/
theorem answer_change (h : Inv s) {found : List Token} (hop : (s.procs p).op = .probed found) :
    Change s
      { s.setProc p { s.procs p with
          op := .idle
          dead := if found = [] then (s.procs p).dead else found :: (s.procs p).dead } with
        exclusive := s.exclusiveWithout p }
      p { s.procs p with op := .idle, dead := if found = [] then (s.procs p).dead else found :: (s.procs p).dead } := by
  have hknown : ∀ u, Proc.Knows { s.procs p with
      op := .idle, dead := if found = [] then (s.procs p).dead else found :: (s.procs p).dead } u →
      (s.procs p).Knows u := by
    intro u hu
    obtain ⟨l, hl, hul⟩ := Proc.knows_of_dead hu
    split_ifs at hl with hf
    · exact .inl ⟨l, hl, hul⟩
    · rcases List.mem_cons.mp hl with rfl | hl
      · exact .inr (by rw [hop]; exact hul)
      · exact .inl ⟨l, hl, hul⟩
  have hc := @Inv.change_of_letGo _ _ s p { s.procs p with
      op := .idle, dead := if found = [] then (s.procs p).dead else found :: (s.procs p).dead } h
    (s.exclusiveWithout p) ∅ rfl (Finset.Subset.refl _) (Finset.empty_subset _) (fun u _ => Finset.notMem_empty u)
    (.inr rfl) hknown
  rwa [Finset.sdiff_empty] at hc

/-- The guard of a run that is not finished is dropped. -/
theorem drop_change (h : Inv s) {t : Token} (hop : (s.procs p).op = .idle) (hmark : t ∈ (s.procs p).marks) :
    Change s { s.setProc p { s.procs p with marks := (s.procs p).marks.erase t } with shared := s.shared.erase t } p
      { s.procs p with marks := (s.procs p).marks.erase t } := by
  have hc : Change s _ p { s.procs p with marks := (s.procs p).marks.erase t } :=
    @Inv.change_of_letGo _ _ s p { s.procs p with marks := (s.procs p).marks.erase t } h s.exclusive {t} hop
      (Finset.erase_subset t _) (Finset.singleton_subset_iff.mpr (Proc.mem_live.mpr (.inl hmark)))
      (fun u hu hut => Finset.ne_of_mem_erase hu (Finset.mem_singleton.mp hut)) (.inl rfl) (fun u hu => hu)
  rwa [Finset.sdiff_singleton_eq_erase] at hc

/-- **Every step is a change**, or one that leaves the state alone (a probe that found a run in
flight). -/
theorem step_change (h : Inv s) (hs : step s a = some s') : s' = s ∨ ∃ c, Change s s' a.pid c := by
  cases a with
  -- `begin`
  | takeShared p t =>
    simp only [step] at hs
    split_ifs at hs with hg
    obtain rfl := Option.some_inj.mp hs
    exact .inr ⟨_, takeShared_change h hg.2.1 hg.2.2⟩
  | insert p =>
    simp only [step] at hs
    split at hs
    case h_1 t hop =>
      obtain rfl := Option.some_inj.mp hs
      exact .inr ⟨_, insert_change h hop⟩
    case h_2 => cases hs
  -- `finish` and `retire`
  | finish p t =>
    simp only [step] at hs
    split_ifs at hs with hg
    obtain rfl := Option.some_inj.mp hs
    exact .inr ⟨_, finish_change h hg.2⟩
  | retire p ts =>
    simp only [step] at hs
    split_ifs at hs with hg
    obtain rfl := Option.some_inj.mp hs
    exact .inr ⟨_, retire_change h hg.2⟩
  | update p =>
    simp only [step] at hs
    split at hs
    case h_1 t ts f hop =>
      obtain rfl := Option.some_inj.mp hs
      exact .inr ⟨_, update_change h hop⟩
    case h_2 => cases hs
  | delete p =>
    simp only [step] at hs
    split at hs
    case h_1 t hop =>
      obtain rfl := Option.some_inj.mp hs
      exact .inr ⟨_, delete_change h hop (.inr ⟨t, rfl, rfl⟩)⟩
    case h_2 hop =>
      obtain rfl := Option.some_inj.mp hs
      exact .inr ⟨_, delete_change h hop (.inl ⟨rfl, rfl⟩)⟩
    case h_3 => cases hs
  | release p =>
    simp only [step] at hs
    split at hs
    case h_1 t hop =>
      obtain rfl := Option.some_inj.mp hs
      exact .inr ⟨_, release_change h (by rw [hop, Op.mark])⟩
    case h_2 => cases hs
  -- `dead_runs`
  | probe p =>
    simp only [step] at hs
    split_ifs at hs with hg hfree
    · obtain rfl := Option.some_inj.mp hs
      exact .inr ⟨_, probe_change h hfree.1 hfree.2⟩
    · exact .inl (Option.some_inj.mp hs).symm
  | read p =>
    simp only [step] at hs
    split at hs
    case h_1 hop =>
      obtain rfl := Option.some_inj.mp hs
      exact .inr ⟨_, read_change h hop⟩
    case h_2 => cases hs
  | answer p =>
    simp only [step] at hs
    split at hs
    case h_1 found hop =>
      obtain rfl := Option.some_inj.mp hs
      exact .inr ⟨_, answer_change h hop⟩
    case h_2 => cases hs
  -- a guard, an operation or the process is given up
  | drop p t =>
    simp only [step] at hs
    split_ifs at hs with hg
    obtain rfl := Option.some_inj.mp hs
    exact .inr ⟨_, drop_change h hg.1 hg.2⟩
  | fail p =>
    simp only [step] at hs
    obtain rfl := Option.some_inj.mp hs
    exact .inr ⟨_, h.change_of_letGo _ rfl (Finset.Subset.refl _) Finset.subset_union_right
      (fun u hu hut => h.op_mark p u (Option.mem_toFinset.mp hut) hu) (.inr rfl)
      (fun u hu => .inl (Proc.knows_of_dead hu))⟩
  | kill p =>
    simp only [step] at hs
    obtain rfl := Option.some_inj.mp hs
    exact .inr ⟨_, h.change_of_letGo _ rfl (Finset.empty_subset _) (Finset.Subset.refl _)
      (fun u hu => absurd hu (Finset.notMem_empty u)) (.inr rfl) (by
        intro u hu
        obtain ⟨l, hl, -⟩ := Proc.knows_of_dead hu
        exact absurd hl List.not_mem_nil)⟩

/-! ### Runs -/

omit [DecidableEq Pid] in
theorem inv_init (marker : Option Text) : Inv (State.init marker : State Pid) := by
  constructor
  case marker_used => exact fun t ht => List.mem_toFinset.mpr ht
  case shared_used => exact Finset.empty_subset _
  case exclusive_alone => exact fun _ => rfl
  all_goals
    simp [State.init, Proc.start, Proc.live, Proc.Knows, Proc.Marked, Op.mark, Op.Knows, Op.Retires,
      Op.Probes]

theorem inv_step (h : Inv s) (hs : step s a = some s') : Inv s' := by
  rcases step_change h hs with rfl | ⟨c, hc⟩
  · exact h
  · exact h.change hc

/-- The invariant holds in every reachable state. -/
theorem inv_of_run {marker : Option Text} {as : List (Action Pid)}
    (h : run step (State.init marker) as = some s) : Inv s :=
  run_invariant inv_step (inv_init marker) h

/-! ### A crashed run -/

/-- The action ends the run `t` without `finish`: its mark is dropped by an error return, or its
process is killed. -/
def Crashes (s : State Pid) (t : Token) : Action Pid → Prop
  | .drop _ u => u = t
  | .fail p => (s.procs p).op.mark = some t
  | .kill p => t ∈ (s.procs p).live
  | _ => False

/-- `t` is in the marker and no process has anything to do with it. -/
structure Orphan (s : State Pid) (t : Token) : Prop where
  mem : t ∈ tokens s.marker
  not_live : ∀ q, t ∉ (s.procs q).live
  not_retired : ∀ q, ¬ (s.procs q).op.Retires t

/-- A process comes to retire a token by finishing its own run or by a call of `retire`. -/
theorem retires_of_step {q : Pid} (hs : step s a = some s') (hr : (s'.procs q).op.Retires t) :
    (s.procs q).op.Retires t ∨ t ∈ (s.procs q).marks ∨ ∃ ts, a = .retire q ts ∧ t ∈ ts := by
  by_cases hq : q = a.pid
  · subst hq
    cases a with
    | finish p u =>
      simp only [step] at hs
      split_ifs at hs with hg
      obtain rfl := Option.some_inj.mp hs
      simp only [Action.pid, State.setProc, Function.update_self, Op.Retires,
        List.mem_singleton] at hr
      exact .inr (.inl (hr ▸ hg.2))
    | retire p ts =>
      simp only [step] at hs
      split_ifs at hs
      obtain rfl := Option.some_inj.mp hs
      simp only [Action.pid, State.setProc, Function.update_self, Op.Retires] at hr
      exact .inr (.inr ⟨ts, rfl, hr⟩)
    | update p =>
      simp only [step] at hs
      split at hs
      case h_1 u us f hop =>
        obtain rfl := Option.some_inj.mp hs
        simp only [Action.pid, State.setProc, Function.update_self, Op.Retires] at hr
        left
        show (s.procs p).op.Retires t
        rw [hop]
        exact List.mem_cons_of_mem u hr
      case h_2 => cases hs
    -- The other actions leave the process at an operation that retires nothing.
    | takeShared p u | probe p | drop p u =>
      simp only [step] at hs
      split_ifs at hs <;> obtain rfl := Option.some_inj.mp hs <;>
        simp_all [Action.pid, State.setProc, Op.Retires]
    | insert p | delete p | release p | read p | answer p =>
      simp only [step] at hs
      split at hs <;> cases hs <;> simp_all [Action.pid, State.setProc, Op.Retires]
    | fail p | kill p =>
      simp only [step] at hs
      obtain rfl := Option.some_inj.mp hs
      simp_all [Action.pid, State.setProc, Op.Retires, Proc.start]
  · left
    have hproc : s'.procs q = s.procs q := by
      cases a <;> simp only [step] at hs <;> (try split at hs) <;> (try split at hs) <;> cases hs <;>
        first | rfl | exact Function.update_of_ne hq _ _
    rwa [hproc] at hr

/-- A crash leaves the token of a run that had not finished an orphan. -/
theorem orphan_of_crash (h : Inv s) {q : Pid} (hm : (s.procs q).Marked t) (hc : Crashes s t a)
    (hs : step s a = some s') : Orphan s' t := by
  have hmem : t ∈ tokens s.marker := h.marked q t hm
  -- The run belongs to the process that crashes it.
  obtain ⟨p, c, hl, hm', hp, hcl, hop⟩ : ∃ p c, t ∈ (s.procs p).live ∧ s'.marker = s.marker ∧
      s'.procs = Function.update s.procs p c ∧ t ∉ c.live ∧ c.op = .idle := by
    cases a with
    | drop p u =>
      obtain rfl : u = t := hc
      simp only [step] at hs
      split_ifs at hs with hg
      obtain rfl := Option.some_inj.mp hs
      refine ⟨p, _, Proc.mem_live.mpr (.inl hg.2), rfl, rfl, ?_, hg.1⟩
      simp [Proc.mem_live, hg.1, Op.mark]
    | fail p =>
      have hmark : (s.procs p).op.mark = some t := hc
      simp only [step] at hs
      obtain rfl := Option.some_inj.mp hs
      refine ⟨p, _, Proc.mem_live.mpr (.inr hmark), rfl, rfl, ?_, rfl⟩
      simp [Proc.mem_live, h.op_mark p t hmark, Op.mark]
    | kill p =>
      simp only [step] at hs
      obtain rfl := Option.some_inj.mp hs
      exact ⟨p, _, hc, rfl, rfl, by simp [Proc.start, Proc.live, Op.mark], rfl⟩
    | takeShared | insert | finish | retire | update | delete | release | probe | read | answer =>
      exact hc.elim
  constructor
  · rw [hm']
    exact hmem
  · intro r
    rw [hp]
    by_cases hr : r = p
    · rw [hr, Function.update_self]
      exact hcl
    · rw [Function.update_of_ne hr]
      exact fun hl' => hr (h.own r p t hl' hl)
  · intro r hret
    rw [hp] at hret
    by_cases hr : r = p
    · rw [hr, Function.update_self, hop] at hret
      exact hret
    · rw [Function.update_of_ne hr] at hret
      exact h.not_live_of_retires (Ne.symm hr) hret hl

/-- An orphan stays one, unless a retire of its token is called. -/
theorem orphan_step (h : Inv s) (ho : Orphan s t) (ha : ∀ p ts, a = .retire p ts → t ∉ ts)
    (hs : step s a = some s') : Orphan s' t := by
  rcases step_change h hs with rfl | ⟨c, hc⟩
  · exact ho
  constructor
  · rcases hc.marker_kept t ho.mem with hm | hm
    · exact hm
    · exact absurd hm (ho.not_retired a.pid)
  · intro q
    rw [hc.procs]
    by_cases hq : q = a.pid
    · rw [hq, Function.update_self]
      intro hl
      rcases hc.live_own t hl with h' | h'
      · exact ho.not_live a.pid h'
      · exact h' (h.marker_used t ho.mem)
    · rw [Function.update_of_ne hq]
      exact ho.not_live q
  · intro q hr
    rcases retires_of_step hs hr with h' | h' | ⟨ts, rfl, hts⟩
    · exact ho.not_retired q h'
    · exact ho.not_live q (Proc.mem_live.mpr (.inl h'))
    · exact ha q ts rfl hts

/-- **The marker protocol.** In every reachable state, no token that `dead_runs` returned (or is about
to return) is that of a live run; and the token of a run that crashes with its mark unfinished is in
the marker from then on, whatever the processes do, until a call of `retire` with it in its list. -/
theorem dead_runs_dead_and_crashed_run_kept {marker : Option Text} {as : List (Action Pid)}
    (h : run step (State.init marker) as = some s) :
    (∀ p ts, ts ∈ (s.procs p).dead ∨ (s.procs p).op = .probed ts →
      ∀ t ∈ ts, ∀ q, t ∉ (s.procs q).live) ∧
    ∀ t a s₁, (∃ q, (s.procs q).Marked t) → Crashes s t a → step s a = some s₁ →
      ∀ bs s₂, run step s₁ bs = some s₂ → (∀ p ts, Action.retire p ts ∈ bs → t ∉ ts) →
        t ∈ tokens s₂.marker := by
  have hinv : Inv s := inv_of_run h
  constructor
  · intro p ts hts t ht q
    apply hinv.known_dead p t
    rcases hts with hd | hop
    · exact .inl ⟨ts, hd, ht⟩
    · right
      rw [hop]
      exact ht
  · rintro t a s₁ ⟨q, hm⟩ hc hs bs s₂ hr hbs
    have h₁ : Inv s₁ ∧ Orphan s₁ t := ⟨inv_step hinv hs, orphan_of_crash hinv hm hc hs⟩
    have hok : ∀ b ∈ bs, ∀ p ts, b = Action.retire p ts → t ∉ ts := by
      rintro b hb p ts rfl
      exact hbs p ts hb
    have hstep : ∀ {s : State Pid} {b s'}, Inv s ∧ Orphan s t →
        (∀ p ts, b = Action.retire p ts → t ∉ ts) → step s b = some s' → Inv s' ∧ Orphan s' t :=
      fun hI hb hs => ⟨inv_step hI.1 hs, orphan_step hI.1 hI.2 hb hs⟩
    exact (run_invariant_of_forall hstep h₁ hok hr).2.mem

/-- A run killed beside another one that finishes, and a probe that finds its token. -/
theorem killed_run_kept_and_found :
    ∃ s s₁ s₂ : State ℕ,
      run step (State.init none) [.takeShared 0 (runToken 7 1 0), .insert 0,
        .takeShared 1 (runToken 8 2 0), .insert 1] = some s ∧
      step s (.kill 0) = some s₁ ∧
      run step s₁ [.finish 1 (runToken 8 2 0), .update 1, .delete 1, .release 1, .probe 1, .read 1,
        .answer 1] = some s₂ ∧
      runToken 7 1 0 ∈ tokens s₂.marker ∧ [runToken 7 1 0] ∈ (s₂.procs 1).dead := by
  obtain ⟨s, s₁, s₂, hs, hs₁, hs₂, hm, hl, hd⟩ : ∃ s s₁ s₂ : State ℕ,
      run step (State.init none) [.takeShared 0 (runToken 7 1 0), .insert 0,
        .takeShared 1 (runToken 8 2 0), .insert 1] = some s ∧
      step s (.kill 0) = some s₁ ∧
      run step s₁ [.finish 1 (runToken 8 2 0), .update 1, .delete 1, .release 1, .probe 1, .read 1,
        .answer 1] = some s₂ ∧
      runToken 7 1 0 ∈ (s.procs 0).marks ∧ runToken 7 1 0 ∈ (s.procs 0).live ∧
      [runToken 7 1 0] ∈ (s₂.procs 1).dead :=
    ⟨_, _, _, rfl, rfl, rfl, by decide +kernel, by decide +kernel, by decide +kernel⟩
  refine ⟨s, s₁, s₂, hs, hs₁, hs₂, ?_, hd⟩
  refine (dead_runs_dead_and_crashed_run_kept hs).2 _ (.kill 0) s₁ ⟨0, .inl hm⟩ hl hs₁ _ s₂ hs₂ ?_
  intro p ts hmem
  simp at hmem

end CodeGraph.Pipeline.InFlight
