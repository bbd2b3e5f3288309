import Dsv41Overlay.Bench.Loop
import Mathlib.Data.List.Nodup
import Mathlib.Data.List.Perm.Subperm

/-!
# Resuming a benchmark run

A later invocation can rely on the file as long as it holds whole rows: then it reads every
row, plans exactly the jobs without a finished one, and no job is finished twice
(`Resumable`). The invariant `Inv` adds what the loop holds in memory: the keys of the
finished rows, on disk or not yet flushed, and the keys that are pending, in flight or
between the two are all distinct. Every step permutes this list or drops a part of it.

Three things break the file, and the loop prevents none of them. A kill may leave a part of
a row. It may cut off only a row's newline, which goes unnoticed until the next row is
appended to the same line. And a row may contain a line separator that the writer leaves
unescaped and the reader splits at. `WholeStep` excludes exactly these steps, and
`resume_whole_rows` is what holds without them.
-/

namespace Dsv41Overlay.Bench

open Json (Terminated)

/-! ### What an invocation relies on -/

/-- The file holds the rows, each in one piece; they are read back, every plan is resumed
where they leave it, and no key has two finished rows. -/
structure Resumable (s : State) (rows : List Row) : Prop where
  onDisk : OnDisk s.file rows
  readable : Json.readJsonl s.file = some ((rows.map Row.fields).map Json.Flat.value)
  todo : ∀ plan, todoOf s.file plan
    = some (plan.filter fun j => decide (j.key ∉ finishedKeys rows))
  once : (finishedKeys rows).Nodup

/-- The steps that leave whole rows: what goes to disk is whole rows without an unescaped
separator, after a row that has its newline. -/
def WholeStep (s : State) : Label → Prop
  | .flush => s.unflushed = [] ∨ Terminated s.file ∧ ∀ r ∈ s.unflushed, r.Unbroken
  | .kill n => ∃ kept, kept <+: s.unflushed ∧
      OnDisk ((encodeRows s.unflushed).extract 0 n) kept ∧
      (kept = [] ∨ Terminated s.file ∧ ∀ r ∈ kept, r.Unbroken)
  | _ => True

/-! ### The invariant -/

/-- The job the main thread holds outside of `pending` and `inflight`, if it is not
finished. -/
def heldKeys : Point → List Key
  | .removed ro _ => [ro.job.key]
  | .buffered ro _ | .flushed ro _ => if ro.status = .done then [] else [ro.job.key]
  | .popped job => [job.key]
  | _ => []

/-- The keys that may still be finished by this invocation. -/
def State.live (s : State) : List Key :=
  s.pending.map Job.key ++ s.inflight.map (fun ro => ro.job.key) ++ heldKeys s.point

/-- In the interrupt handler every rollout is aborted before one is recorded. -/
def Handled (s : State) : Prop :=
  match s.point with
  | .aborting .interrupted rest => ∀ ro ∈ s.inflight, ro.job ∈ rest ∨ ro.abortReason ≠ none
  | .recording _ | .recorded _ => ∀ ro ∈ s.inflight, ro.abortReason ≠ none
  | _ => True

/-- **The invariant**, for the rows on disk. -/
structure Inv (s : State) (rows : List Row) : Prop where
  onDisk : OnDisk s.file rows
  unbroken : ∀ r ∈ rows, r.Unbroken
  nodup : (finishedKeys (rows ++ s.unflushed) ++ s.live).Nodup
  handled : Handled s

variable {s s' : State} {rows : List Row}

/-- Under the invariant the run can be resumed. -/
theorem Inv.resumable (h : Inv s rows) : Resumable s rows where
  onDisk := h.onDisk
  readable := readJsonl_rows h.onDisk h.unbroken
  todo := todoOf_rows h.onDisk h.unbroken
  once := by
    have hfinished := (List.nodup_append.mp h.nodup).1
    rw [finishedKeys_append] at hfinished
    exact (List.nodup_append.mp hfinished).1

/-- A key that is still live has no finished row. -/
theorem Inv.not_finished (h : Inv s rows) {k : Key} (hk : k ∈ s.live) :
    k ∉ finishedKeys rows := by
  intro hfinished
  have hmem : k ∈ finishedKeys (rows ++ s.unflushed) := by
    rw [finishedKeys_append]
    exact List.mem_append_left _ hfinished
  exact (List.nodup_append.mp h.nodup).2.2 k hmem k hk rfl

/-! ### What goes to disk -/

/-- What the loop writes is on disk as the rows it encodes. -/
theorem onDisk_encodeRows (rows : List Row) : OnDisk (encodeRows rows) rows :=
  .inl (encodeRows_eq rows)

/-- Whole rows go after the rows on disk. -/
theorem OnDisk.append {file more : ByteArray} {new : List Row} (h : OnDisk file rows)
    (hterm : Terminated file) (hmore : OnDisk more new) :
    OnDisk (file ++ more) (rows ++ new) := by
  have happend := Json.Terminated.append hterm h hmore
  rwa [← List.map_append] at happend

/-- Without rows there are no bytes. -/
theorem OnDisk.eq_empty {more : ByteArray} (h : OnDisk more []) : more = ByteArray.empty := by
  rcases h with h | ⟨front, last, hnil, -⟩
  · exact h.trans List.utf8Encode_nil
  · exact absurd hnil.symm (by simp)

/-- A whole flush puts the buffered rows behind those on disk. -/
theorem onDisk_flush (h : Inv s rows) (hC : WholeStep s .flush) :
    OnDisk s.flush.file (rows ++ s.unflushed) ∧ ∀ r ∈ rows ++ s.unflushed, r.Unbroken := by
  -- nothing was pending, or whole rows go behind whole rows
  rcases hC with hnil | ⟨hterm, hunbroken⟩
  · have hempty : encodeRows s.unflushed = ByteArray.empty := by
      rw [hnil]
      exact (onDisk_encodeRows []).eq_empty
    rw [hnil, List.append_nil]
    refine ⟨?_, h.unbroken⟩
    show OnDisk (s.file ++ encodeRows s.unflushed) rows
    rw [hempty, ByteArray.append_empty]
    exact h.onDisk
  · refine ⟨h.onDisk.append hterm (onDisk_encodeRows s.unflushed), ?_⟩
    intro r hr
    rcases List.mem_append.mp hr with hr | hr
    · exact h.unbroken r hr
    · exact hunbroken r hr

/-! ### Steps that leave the file alone -/

/-- A part of a list without repetitions has none. -/
theorem nodup_of_subperm {α : Type*} {l₁ l₂ : List α} (h : l₁.Subperm l₂) (h₂ : l₂.Nodup) :
    l₁.Nodup := by
  obtain ⟨l, hperm, hsub⟩ := h
  exact hperm.nodup_iff.mp (h₂.sublist hsub)

/-- The invariant depends on the file, on what is handed to it and on the live keys. -/
theorem Inv.of_live (h : Inv s rows) (hfile : s'.file = s.file)
    (hunflushed : s'.unflushed = s.unflushed) (hlive : s'.live.Subperm s.live)
    (hhandled : Handled s') : Inv s' rows where
  onDisk := by
    rw [hfile]
    exact h.onDisk
  unbroken := h.unbroken
  nodup := by
    rw [hunflushed]
    exact nodup_of_subperm ((List.subperm_append_left _).mpr hlive) h.nodup
  handled := hhandled

/-- Going to a point that holds no job. -/
theorem live_goto (s : State) {p : Point} (hp : heldKeys p = []) :
    ({ s with point := p } : State).live.Subperm s.live := by
  show (s.pending.map Job.key ++ s.inflight.map (fun ro => ro.job.key) ++ heldKeys p).Subperm _
  rw [hp, List.append_nil]
  exact (List.sublist_append_left _ _).subperm

/-- Moving to a point that holds no key keeps the invariant. -/
theorem Inv.goto (h : Inv s rows) {p : Point} (hp : heldKeys p = [])
    (hhandled : Handled { s with point := p }) : Inv { s with point := p } rows :=
  h.of_live rfl rfl (live_goto s hp) hhandled

/-- A change of rollouts that keeps their jobs. -/
theorem live_inflight (s : State) {inflight : List Rollout}
    (h : inflight.map (fun ro => ro.job.key) = s.inflight.map fun ro => ro.job.key) :
    ({ s with inflight := inflight } : State).live = s.live := by
  show s.pending.map Job.key ++ inflight.map (fun ro => ro.job.key) ++ heldKeys s.point = _
  rw [h]
  rfl

/-- An update that keeps the job keeps every key in flight. -/
theorem map_key_update (s : State) (job : Job) {f : Rollout → Rollout}
    (hf : ∀ ro, (f ro).job = ro.job) :
    (s.update job f).inflight.map (fun ro => ro.job.key)
      = s.inflight.map fun ro => ro.job.key := by
  show (s.inflight.map fun ro => if ro.job = job then f ro else ro).map _ = _
  rw [List.map_map]
  apply List.map_congr_left
  intro ro _
  show (if ro.job = job then f ro else ro).job.key = ro.job.key
  split
  · rw [hf]
  · rfl

-- The steps of the loop permute the live keys, or drop some.

/-- Taking a rollout out of flight keeps its key at the point. -/
theorem Inv.remove (h : Inv s rows) {ro : Rollout} {rest : List Job} {before after : List Rollout}
    (hpoint : s.point = .reap (ro.job :: rest)) (hro : s.inflight = before ++ ro :: after) :
    Inv { s with inflight := before ++ after, point := .removed ro rest } rows := by
  refine h.of_live rfl rfl (List.Perm.subperm ?_) trivial
  show (s.pending.map Job.key ++ (before ++ after).map (fun ro => ro.job.key)
    ++ [ro.job.key]).Perm s.live
  unfold State.live
  rw [hro, hpoint, List.append_assoc, List.append_assoc]
  apply List.Perm.append_left
  -- the key moves to the end
  show ((before ++ after).map (fun ro : Rollout => ro.job.key) ++ [ro.job.key]).Perm
    ((before ++ ro :: after).map (fun ro : Rollout => ro.job.key) ++ [])
  rw [List.append_nil, List.map_append, List.map_append, List.map_cons, List.append_assoc]
  exact (List.perm_append_singleton ro.job.key _).append_left _

/-- Accounting ends the rollout, and gives a yielded job back to the pending ones. -/
theorem Inv.account (h : Inv s rows) {ro : Rollout} {rest : List Job}
    (hpoint : s.point = .flushed ro rest) : Inv (s.account ro rest) rows := by
  unfold State.account
  cases hstatus : ro.status with
  | done => exact h.of_live rfl rfl (live_goto s rfl) trivial
  | error => exact h.of_live rfl rfl (live_goto s rfl) trivial
  | budget => exact h.of_live rfl rfl (live_goto s rfl) trivial
  | interrupted => exact h.of_live rfl rfl (live_goto s rfl) trivial
  | yielded =>
    -- the job is held until it is pending again
    refine h.of_live rfl rfl (List.Perm.subperm ?_) trivial
    show ((ro.job.key :: s.pending.map Job.key)
      ++ s.inflight.map (fun r : Rollout => r.job.key) ++ []).Perm s.live
    have hheld : heldKeys s.point = [ro.job.key] := by
      rw [hpoint]
      show (if ro.status = .done then [] else [ro.job.key]) = _
      rw [hstatus]
      rfl
    unfold State.live
    rw [hheld, List.append_nil, List.cons_append]
    exact (List.perm_append_singleton _ _).symm

/-- Checking the budgets keeps every job where it is. -/
theorem Inv.checkBudgets (h : Inv s rows) (timeOver : Bool) :
    Inv (s.checkBudgets timeOver) rows := by
  unfold State.checkBudgets
  split
  · exact h.goto rfl trivial
  · split
    · exact h.of_live rfl rfl (live_goto s rfl) trivial
    · split
      · exact h.of_live rfl rfl (live_goto s rfl) trivial
      · exact h.goto rfl trivial

/-- Checking the metrics keeps every job where it is. -/
theorem Inv.checkMetrics (h : Inv s rows) (busy sustained : Bool) :
    Inv (s.checkMetrics busy sustained) rows := by
  unfold State.checkMetrics
  split
  · exact h.goto rfl trivial
  · exact h.goto rfl trivial

/-- The handler starts with every rollout in flight still to abort. -/
theorem Inv.interrupt (h : Inv s rows) :
    Inv { s with point := .aborting .interrupted s.jobs } rows := by
  refine h.goto rfl ?_
  intro ro hro
  exact .inl (List.mem_map_of_mem hro)

/-- A popped job is held by the point. -/
theorem Inv.pop (h : Inv s rows) {job : Job} {rest : List Job} (hpending : s.pending = job :: rest)
    (hpoint : s.point = .gate) :
    Inv { s with pending := rest, point := .popped job } rows := by
  refine h.of_live rfl rfl (List.Perm.subperm ?_) trivial
  show (rest.map Job.key ++ s.inflight.map (fun ro => ro.job.key) ++ [job.key]).Perm s.live
  unfold State.live
  rw [hpending, hpoint]
  rw [List.map_cons, List.cons_append, show heldKeys .gate = [] from rfl, List.append_nil]
  exact List.perm_append_singleton _ _

/-- A registered job is in flight instead of at the point. -/
theorem Inv.register (h : Inv s rows) {job : Job} (promptTokens : ℕ) (startedAt : List Char)
    (hpoint : s.point = .popped job) :
    Inv { s with
          inflight := s.inflight ++ [Rollout.fresh job promptTokens startedAt]
          point := .registered job } rows := by
  refine h.of_live rfl rfl (List.Perm.subperm (.of_eq ?_)) trivial
  show s.pending.map Job.key ++ (s.inflight ++ [Rollout.fresh job promptTokens startedAt]).map
    (fun ro => ro.job.key) ++ [] = s.live
  unfold State.live
  rw [hpoint, List.append_nil, List.map_append, List.append_assoc]
  rfl

/-- A change of one rollout that keeps its job. -/
theorem map_key_replace {ro ro' : Rollout} {before after : List Rollout}
    (hro : s.inflight = before ++ ro :: after) (hjob : ro'.job = ro.job) :
    (before ++ ro' :: after).map (fun ro => ro.job.key)
      = s.inflight.map fun ro => ro.job.key := by
  rw [hro, List.map_append, List.map_append, List.map_cons, List.map_cons, hjob]

/-- Starting a rollout keeps its job. -/
theorem Inv.run (h : Inv s rows) {ro : Rollout} {before after : List Rollout}
    (hro : s.inflight = before ++ ro :: after) :
    Inv { s with
          inflight := before ++ { ro with started := true, alive := true } :: after
          point := .head } rows := by
  have hlive : ({ s with inflight := before ++ { ro with started := true, alive := true } :: after }
      : State).live = s.live := live_inflight s (map_key_replace hro rfl)
  have hgoto := live_goto
    ({ s with inflight := before ++ { ro with started := true, alive := true } :: after } : State)
    (show heldKeys .head = [] from rfl)
  rw [hlive] at hgoto
  exact h.of_live rfl rfl hgoto trivial

/-- Aborting a rollout keeps its job. -/
theorem Inv.abort (h : Inv s rows) {reason : Abort} {job : Job} {rest : List Job}
    (hpoint : s.point = .aborting reason (job :: rest)) :
    Inv { s.update job (fun ro => ro.abort reason) with point := .aborting reason rest } rows := by
  -- an abort changes no key
  have hlive : (s.update job fun ro => ro.abort reason).live = s.live :=
    live_inflight s (map_key_update s job fun ro => rfl)
  refine h.of_live rfl rfl (hlive ▸ live_goto _ rfl) ?_
  -- only the handler of an interrupt promises something
  cases reason with
  | budget => trivial
  | yielded => trivial
  | interrupted =>
    have hhandled := h.handled
    unfold Handled at hhandled
    rw [hpoint] at hhandled
    intro ro hro
    obtain ⟨ro', hro', rfl⟩ := List.mem_map.mp hro
    dsimp only
    -- the rollout that was aborted has a reason now, the others keep theirs
    split
    · exact .inr (ro'.abort_ne_none .interrupted)
    · next hjob =>
      rcases hhandled ro' hro' with hmem | hreason
      · exact .inl ((List.mem_cons.mp hmem).resolve_left hjob)
      · exact .inr hreason

/-- After the last abort the loop goes on with every rollout in flight. -/
theorem Inv.aborted (h : Inv s rows) {reason : Abort} (hpoint : s.point = .aborting reason []) :
    Inv (s.aborted reason) rows := by
  cases reason with
  | budget => exact h.goto rfl trivial
  | yielded => exact h.goto rfl trivial
  | interrupted =>
    refine h.goto rfl ?_
    have hhandled := h.handled
    unfold Handled at hhandled
    rw [hpoint] at hhandled
    intro ro hro
    exact (hhandled ro hro).resolve_left List.not_mem_nil

/-- An aborted rollout stays aborted while it makes progress. -/
theorem Rollout.Progress.abort_ne_none {ro ro' : Rollout} (h : ro.Progress ro')
    (hreason : ro.abortReason ≠ none) : ro'.abortReason ≠ none := by
  rcases h.abortReason with heq | ⟨hnone, -⟩
  · rwa [heq]
  · exact absurd hnone hreason

/-- Progress of a rollout keeps its job. -/
theorem Inv.progress (h : Inv s rows) {ro ro' : Rollout} {before after : List Rollout}
    (hro : s.inflight = before ++ ro :: after) (hprogress : ro.Progress ro') :
    Inv { s with inflight := before ++ ro' :: after } rows := by
  have hlive : ({ s with inflight := before ++ ro' :: after } : State).live = s.live :=
    live_inflight s (map_key_replace hro hprogress.job)
  refine h.of_live rfl rfl (List.Perm.of_eq hlive).subperm ?_
  -- in the handler a rollout stays aborted
  have hstays : ∀ {P : Rollout → Prop}, (∀ r ∈ s.inflight, P r) → (P ro → P ro') →
      ∀ r ∈ before ++ ro' :: after, P r := by
    intro P hall himp r hr
    rw [hro] at hall
    rcases List.mem_append.mp hr with hr | hr
    · exact hall r (List.mem_append_left _ hr)
    · rcases List.mem_cons.mp hr with rfl | hr
      · exact himp (hall ro (List.mem_append_right _ List.mem_cons_self))
      · exact hall r (List.mem_append_right _ (List.mem_cons_of_mem _ hr))
  -- the promise of the handler is about every rollout in flight
  have hhandled := h.handled
  unfold Handled at hhandled ⊢
  dsimp only
  split
  · next rest hpoint =>
    rw [hpoint] at hhandled
    refine hstays hhandled ?_
    rintro (hmem | hreason)
    · exact .inl (hprogress.job ▸ hmem)
    · exact .inr (hprogress.abort_ne_none hreason)
  · next rest hpoint =>
    rw [hpoint] at hhandled
    exact hstays hhandled hprogress.abort_ne_none
  · next rest hpoint =>
    rw [hpoint] at hhandled
    exact hstays hhandled hprogress.abort_ne_none
  · trivial

/-! ### Steps that write -/

/-- A row finishes its key when it says done. -/
theorem finishedKeys_singleton (r : Row) :
    finishedKeys [r] = if r.status = .done then [r.key] else [] := by
  unfold finishedKeys
  rw [List.filter_singleton]
  by_cases h : r.status = .done
  · rw [if_pos h, decide_eq_true h]
    rfl
  · rw [if_neg h, decide_eq_false h]
    rfl

/-- Writing a row moves the key from the point to the buffer. -/
theorem Inv.write (h : Inv s rows) {ro : Rollout} {rest : List Job}
    (hpoint : s.point = .removed ro rest) :
    Inv { s with unflushed := s.unflushed ++ [ro.row], point := .buffered ro rest } rows where
  onDisk := h.onDisk
  unbroken := h.unbroken
  handled := trivial
  nodup := by
    -- the finished keys gain what the held ones lose
    have hnodup := h.nodup
    unfold State.live at hnodup ⊢
    rw [hpoint] at hnodup
    dsimp only
    rw [← List.append_assoc rows, finishedKeys_append _ [ro.row], finishedKeys_singleton]
    change (finishedKeys (rows ++ s.unflushed) ++ (s.pending.map Job.key
      ++ s.inflight.map (fun ro => ro.job.key) ++ [ro.job.key])).Nodup at hnodup
    show (finishedKeys (rows ++ s.unflushed)
      ++ (if ro.status = .done then [ro.job.key] else [])
      ++ (s.pending.map Job.key ++ s.inflight.map (fun ro => ro.job.key)
        ++ if ro.status = .done then [] else [ro.job.key])).Nodup
    by_cases hdone : ro.status = .done
    · -- the held key becomes a finished one
      rw [if_pos hdone, if_pos hdone, List.append_nil, List.append_assoc]
      refine (List.Perm.append_left _ ?_).nodup_iff.mp hnodup
      exact List.perm_append_comm
    -- a row that is not done finishes no key
    · rw [if_neg hdone, if_neg hdone, List.append_nil]
      exact hnodup

-- The handler records aborted rollouts only, so it finishes none.

/-- Recording a rollout at the end buffers its row. -/
theorem Inv.record (h : Inv s rows) {ro : Rollout} {rest : List Job}
    (hpoint : s.point = .recording (ro.job :: rest)) (hro : ro ∈ s.inflight) :
    Inv { s with unflushed := s.unflushed ++ [ro.row], point := .recorded rest } rows := by
  have hhandled := h.handled
  unfold Handled at hhandled
  rw [hpoint] at hhandled
  -- the row is that of an aborted rollout
  have hdone : ro.row.status ≠ .done := Rollout.status_ne_done (hhandled ro hro)
  have hkeys : finishedKeys (rows ++ (s.unflushed ++ [ro.row]))
      = finishedKeys (rows ++ s.unflushed) := by
    rw [← List.append_assoc, finishedKeys_append, finishedKeys_singleton, if_neg hdone,
      List.append_nil]
  refine ⟨h.onDisk, h.unbroken, ?_, hhandled⟩
  dsimp only
  rw [hkeys]
  exact nodup_of_subperm ((List.subperm_append_left _).mpr (live_goto s rfl)) h.nodup

/-- What was handed to the file is on disk. -/
theorem Inv.flush (h : Inv s rows) (hC : WholeStep s .flush) {p : Point}
    (hheld : heldKeys p = heldKeys s.point)
    (hhandled : Handled { s.flush with point := p }) :
    Inv { s.flush with point := p } (rows ++ s.unflushed) where
  onDisk := (onDisk_flush h hC).1
  unbroken := (onDisk_flush h hC).2
  handled := hhandled
  nodup := by
    have hlive : ({ s.flush with point := p } : State).live = s.live := by
      show s.pending.map Job.key ++ s.inflight.map (fun ro => ro.job.key) ++ heldKeys p = _
      rw [hheld]
      rfl
    rw [hlive]
    show (finishedKeys (rows ++ s.unflushed ++ []) ++ s.live).Nodup
    rw [List.append_nil]
    exact h.nodup

/-- A whole flush at the end moves the buffer to disk. -/
theorem Inv.recordFlush (h : Inv s rows) (hC : WholeStep s .flush) {rest : List Job}
    (hpoint : s.point = .recorded rest) :
    Inv { s.flush with point := .recording rest } (rows ++ s.unflushed) := by
  have hhandled := h.handled
  unfold Handled at hhandled
  rw [hpoint] at hhandled
  exact h.flush hC (by rw [hpoint]; rfl) hhandled

/-- After the end of the process only the file counts. -/
theorem Inv.exit (h : Inv s rows) {kept : List Row} (hkept : kept <+: s.unflushed)
    {file : ByteArray} (hfile : OnDisk file (rows ++ kept))
    (hunbroken : ∀ r ∈ rows ++ kept, r.Unbroken) :
    Inv { s with file := file }.exit (rows ++ kept) where
  onDisk := hfile
  unbroken := hunbroken
  handled := trivial
  nodup := by
    show (finishedKeys (rows ++ kept ++ []) ++ []).Nodup
    rw [List.append_nil, List.append_nil]
    obtain ⟨lost, hlost⟩ := hkept
    have hnodup := (List.nodup_append.mp h.nodup).1
    rw [← hlost, ← List.append_assoc, finishedKeys_append] at hnodup
    exact (List.nodup_append.mp hnodup).1

/-- Leaving flushes the buffer, and what is on disk can be resumed. -/
theorem Inv.leave (h : Inv s rows) (hC : WholeStep s .flush) :
    Inv s.flush.exit (rows ++ s.unflushed) := by
  obtain ⟨hfile, hunbroken⟩ := onDisk_flush h hC
  exact h.exit (List.prefix_refl _) hfile hunbroken

/-- A kill that keeps whole rows leaves a file that can be resumed. -/
theorem Inv.kill (h : Inv s rows) {n : ℕ} (hC : WholeStep s (.kill n)) :
    ∃ kept, Inv { s with file := s.file ++ (encodeRows s.unflushed).extract 0 n }.exit
      (rows ++ kept) := by
  obtain ⟨kept, hkept, honDisk, hcase⟩ := hC
  -- either nothing reached the disk, or whole rows after whole rows
  refine ⟨kept, h.exit hkept ?_ ?_⟩
  -- what was on disk stays
  · rcases hcase with rfl | ⟨hterm, -⟩
    · rw [honDisk.eq_empty, ByteArray.append_empty, List.append_nil]
      exact h.onDisk
    · exact h.onDisk.append hterm honDisk
  · intro r hr
    rcases List.mem_append.mp hr with hr | hr
    · exact h.unbroken r hr
    · rcases hcase with rfl | ⟨-, hunbroken⟩
      · exact absurd hr List.not_mem_nil
      · exact hunbroken r hr

/-- A new invocation takes the planned jobs without a finished row. -/
theorem Inv.enter (h : Inv s rows) {args : Args} {plan todo : List Job}
    (hplan : (plan.map Job.key).Nodup) (htodo : todoOf s.file plan = some todo) :
    Inv (s.enter args todo) rows := by
  -- what is to do is the plan without the finished keys
  have hfinished := h.resumable.once
  rw [h.resumable.todo] at htodo
  obtain rfl := Option.some.inj htodo
  refine ⟨h.onDisk, h.unbroken, ?_, trivial⟩
  show (finishedKeys (rows ++ [])
    ++ ((plan.filter fun j : Job => decide (j.key ∉ finishedKeys rows)).map Job.key
      ++ [] ++ [])).Nodup
  rw [List.append_nil, List.append_nil, List.append_nil]
  -- the plan has each key once, and what is left of it is not finished
  refine List.nodup_append.mpr ⟨hfinished, ?_, ?_⟩
  · exact hplan.sublist (List.filter_sublist.map _)
  · rintro k hk k' hk' rfl
    obtain ⟨j, hj, rfl⟩ := List.mem_map.mp hk'
    exact of_decide_eq_true (List.mem_filter.mp hj).2 hk

/-! ### Runs -/

/-- Every step keeps the rows on disk and may add some. -/
theorem Inv.step (h : Inv s rows) {l : Label} (hC : WholeStep s l) (hs : Step s l s') :
    ∃ more, Inv s' (rows ++ more) := by
  -- all but the flushes and the kill leave the file as it is
  have hsame : Inv s' rows → ∃ more, Inv s' (rows ++ more) := fun h' =>
    ⟨[], by rwa [List.append_nil]⟩
  cases hs with
  | invoke hpoint hplan htodo hne => exact hsame (h.enter hplan htodo)
  | refuse hpoint => exact hsame h
  | loop hpoint hmore => exact hsame (h.goto rfl trivial)
  | leave hpoint hdone => exact ⟨_, h.leave hC⟩
  | keep hpoint hro halive => exact hsame (h.goto rfl trivial)
  | remove hpoint hro hdead => exact hsame (h.remove hpoint hro)
  | write hpoint => exact hsame (h.write hpoint)
  | flush hpoint => exact ⟨_, h.flush hC (by rw [hpoint]; rfl) trivial⟩
  | account hpoint => exact hsame (h.account hpoint)
  | reaped hpoint => exact hsame (h.goto rfl trivial)
  | budgets timeOver hpoint => exact hsame (h.checkBudgets timeOver)
  | abort hpoint => exact hsame (h.abort hpoint)
  | aborted hpoint => exact hsame (h.aborted hpoint)
  | metrics busy sustained hpoint => exact hsame (h.checkMetrics busy sustained)
  | closed hpoint => exact hsame (h.goto rfl trivial)
  | pop hpoint hstop hpending hroom => exact hsame (h.pop hpending hpoint)
  | register promptTokens startedAt hpoint =>
    exact hsame (h.register promptTokens startedAt hpoint)
  | run hpoint hro => exact hsame (h.run hro)
  | progress hro hprogress => exact hsame (h.progress hro hprogress)
  | interrupt hpoint => exact hsame h.interrupt
  | record hpoint hro hstarted => exact hsame (h.record hpoint hro)
  | recordFlush hpoint => exact ⟨_, h.recordFlush hC hpoint⟩
  | recordEnd hpoint => exact ⟨_, h.leave hC⟩
  | raise hpoint => exact ⟨_, h.leave hC⟩
  | kill kept hpoint => exact h.kill hC

/-- An empty directory meets the invariant. -/
theorem inv_emptyDir : Inv emptyDir [] where
  onDisk := .inl List.utf8Encode_nil.symm
  unbroken := fun _ hr => absurd hr List.not_mem_nil
  nodup := List.nodup_nil
  handled := trivial

/-- **The invariant holds along every run of whole steps.** -/
theorem exists_inv (h : bench.ReachableVia WholeStep s) : ∃ rows, Inv s rows := by
  refine h.invariant (I := fun s => ∃ rows, Inv s rows) ?_ ?_
  · rintro s rfl
    exact ⟨[], inv_emptyDir⟩
  · rintro s l s' ⟨rows, hinv⟩ hC hs
    obtain ⟨more, hmore⟩ := hinv.step hC hs
    exact ⟨rows ++ more, hmore⟩

/-- From any state on, the rows on disk stay there. -/
theorem Inv.from (h : Inv s rows) (hrun : (benchFrom s).ReachableVia WholeStep s') :
    ∃ more, Inv s' (rows ++ more) := by
  refine hrun.invariant (I := fun s' => ∃ more, Inv s' (rows ++ more)) ?_ ?_
  · rintro s' rfl
    exact ⟨[], by rwa [List.append_nil]⟩
  · rintro s₁ l s₂ ⟨more, hinv⟩ hC hs
    obtain ⟨more', hmore⟩ := hinv.step hC hs
    exact ⟨more ++ more', by rwa [← List.append_assoc]⟩

/-- The job being started is in flight, so it has no finished row. -/
theorem Inv.not_finished_of_run (h : Inv s rows) {job : Job} (hs : Step s (.run job) s') :
    job.key ∉ finishedKeys rows := by
  cases hs with
  | run hpoint hro =>
    apply h.not_finished
    unfold State.live
    rw [hro]
    simp

/-! ### The result -/

/-- **Resuming a run of whole steps.** If all that ever goes to disk is whole rows without
an unescaped separator, each after a row that has its newline, then in every state the
file reads back as rows: a new invocation plans exactly the jobs without a finished row,
no key has two, the rows are still there in every later state, and no job with a finished
row is run. -/
theorem resume_whole_rows (hs : bench.ReachableVia WholeStep s) :
    ∃ rows, Resumable s rows ∧
      (∀ s', (benchFrom s).ReachableVia WholeStep s' → ∃ more, Resumable s' (rows ++ more)) ∧
      ∀ s' job, bench.step s (.run job) s' → job.key ∉ finishedKeys rows := by
  obtain ⟨rows, hinv⟩ := exists_inv hs
  refine ⟨rows, hinv.resumable, ?_, ?_⟩
  · intro s' hrun
    obtain ⟨more, hmore⟩ := hinv.from hrun
    exact ⟨more, hmore.resumable⟩
  · intro s' job hstep
    exact hinv.not_finished_of_run hstep

/-! ### One finished rollout, and a torn row -/

/-- A plan of one job, and its rollout before it runs, when it runs and when it has ended. -/
def tinyJob : Job := ⟨"t".toList, 75, .high, 0, 0⟩

@[inherit_doc tinyJob]
def tinyWaiting : Rollout := Rollout.fresh tinyJob 5 "now".toList

@[inherit_doc tinyJob]
def tinyRunning : Rollout := { tinyWaiting with started := true, alive := true }

@[inherit_doc tinyJob]
def tinyRollout : Rollout :=
  { tinyRunning with tokens := 7, finishReason := some "stop".toList, alive := false }

/-- An invocation at a point, with the jobs and the rollouts it still holds, before it has
spent anything. -/
def tinyAt (file : ByteArray) (point : Point) (pending : List Job) (inflight : List Rollout) :
    State :=
  ⟨file, [], point, ⟨100, 3, 1, true⟩, pending, inflight, 0, 0, 0, false⟩

/-- The row has been handed to the file. -/
def tinyWritten : State :=
  { tinyAt ByteArray.empty (.buffered tinyRollout []) [] [] with unflushed := [tinyRollout.row] }

/-- The row is on disk and accounted for. -/
def tinyDone (file : ByteArray) (point : Point) : State :=
  { tinyAt file point [] [] with spent := 7, finished := 1 }

/-- The first invocation is over. -/
def tinyLeft : State := (tinyDone tinyWritten.flush.file .head).flush.exit

/-- A second job, and its rollout before it runs and when it runs. -/
def nextJob : Job := { tinyJob with sampleIdx := 1 }

@[inherit_doc nextJob]
def nextWaiting : Rollout := Rollout.fresh nextJob 5 "now".toList

@[inherit_doc nextJob]
def nextRunning : Rollout := { nextWaiting with started := true, alive := true }

/-- A tick keeps a state reachable. -/
theorem reach_tick (h : bench.ReachableVia WholeStep s) (hs : Step s .tick s') :
    bench.ReachableVia WholeStep s' :=
  h.step (show WholeStep s .tick from trivial) hs

/-- An invocation with one job to do starts it: nothing is in flight and no budget is
reached. -/
theorem reachable_registered (h : bench.ReachableVia WholeStep s) (hidle : s.point = .idle)
    {plan : List Job} {job : Job} (hplan : (plan.map Job.key).Nodup)
    (htodo : todoOf s.file plan = some [job]) : bench.ReachableVia WholeStep
      (tinyAt s.file (.registered job) [] [Rollout.fresh job 5 "now".toList]) := by
  have hhead : bench.ReachableVia WholeStep (tinyAt s.file .head [job] []) := by
    have hstep : Step s (.invoke ⟨100, 3, 1, true⟩ plan) (tinyAt s.file .head [job] []) :=
      .invoke hidle hplan htodo (List.cons_ne_nil _ _)
    exact h.step (show WholeStep s (.invoke _ _) from trivial) hstep
  -- one round of the loop up to the pop
  have hreap : bench.ReachableVia WholeStep (tinyAt s.file (.reap []) [job] []) :=
    reach_tick hhead (.loop rfl (.inl ⟨List.cons_ne_nil _ _, rfl⟩))
  have hbudgets : bench.ReachableVia WholeStep (tinyAt s.file .budgets [job] []) :=
    reach_tick hreap (.reaped rfl)
  have hmetrics : bench.ReachableVia WholeStep (tinyAt s.file .metrics [job] []) :=
    reach_tick hbudgets (.budgets false rfl)
  have hgate : bench.ReachableVia WholeStep (tinyAt s.file .gate [job] []) :=
    reach_tick hmetrics (.metrics false false rfl)
  have hpopped : bench.ReachableVia WholeStep (tinyAt s.file (.popped job) [] []) :=
    reach_tick hgate (.pop rfl rfl rfl Nat.one_pos)
  exact reach_tick hpopped (.register 5 "now".toList rfl)

theorem step_run (file : ByteArray) (job : Job) :
    Step (tinyAt file (.registered job) [] [Rollout.fresh job 5 "now".toList]) (.run job)
      (tinyAt file .head []
        [{ Rollout.fresh job 5 "now".toList with started := true, alive := true }]) :=
  @Step.run (tinyAt file (.registered job) [] [Rollout.fresh job 5 "now".toList])
    (Rollout.fresh job 5 "now".toList) [] [] rfl rfl

/-- The first invocation runs its job, which ends and is reaped. -/
theorem reachable_tinyWritten : bench.ReachableVia WholeStep tinyWritten := by
  have htodo : todoOf emptyDir.file [tinyJob] = some [tinyJob] :=
    (inv_emptyDir.resumable.todo [tinyJob]).trans (congrArg some (by decide))
  have hregistered := reachable_registered (.init rfl) rfl (by decide) htodo
  -- the rollout runs, ends and is reaped
  have hrun : bench.ReachableVia WholeStep (tinyAt ByteArray.empty .head [] [tinyRunning]) :=
    hregistered.step (show WholeStep _ (.run tinyJob) from trivial) (step_run _ tinyJob)
  have hended : bench.ReachableVia WholeStep (tinyAt ByteArray.empty .head [] [tinyRollout]) := by
    have hprogress : tinyRunning.Progress tinyRollout := ⟨rfl, ⟨rfl, rfl⟩, rfl, .inl rfl⟩
    exact reach_tick hrun
      (@Step.progress (tinyAt _ .head [] [tinyRunning]) tinyRunning tinyRollout [] [] rfl hprogress)
  have hreap : bench.ReachableVia WholeStep
      (tinyAt ByteArray.empty (.reap [tinyJob]) [] [tinyRollout]) :=
    reach_tick hended (.loop rfl (.inr (List.cons_ne_nil _ _)))
  have hremoved : bench.ReachableVia WholeStep
      (tinyAt ByteArray.empty (.removed tinyRollout []) [] []) :=
    reach_tick hreap
      (@Step.remove (tinyAt _ (.reap [tinyJob]) [] [tinyRollout]) tinyRollout [] [] [] rfl rfl rfl)
  have hstep : Step (tinyAt ByteArray.empty (.removed tinyRollout []) [] [])
      (.write tinyRollout.row) tinyWritten := .write rfl
  exact hremoved.step (show WholeStep _ (.write tinyRollout.row) from trivial) hstep

/-- The row of the tiny run has no line break in it. -/
theorem unbroken_tinyRow : ∀ r ∈ [tinyRollout.row], r.Unbroken := by
  intro r hr
  obtain rfl := List.mem_singleton.mp hr
  constructor
  case taskId => decide
  case finishReason =>
    intro reason hreason
    obtain rfl := Option.some.inj hreason
    decide
  case startedAt => decide
  case reasoning => decide
  case content => decide
  case error => exact fun h => absurd h (by decide)

theorem account_tiny (file : ByteArray) :
    (tinyAt file (.flushed tinyRollout []) [] []).account tinyRollout []
      = tinyDone file (.reap []) := rfl

/-- With its row accounted for, the first invocation has nothing left to do. -/
theorem reachable_tinyHead {file : ByteArray}
    (h : bench.ReachableVia WholeStep (tinyAt file (.flushed tinyRollout []) [] [])) :
    bench.ReachableVia WholeStep (tinyDone file .head) := by
  have hreap : bench.ReachableVia WholeStep (tinyDone file (.reap [])) := by
    rw [← account_tiny]
    exact reach_tick h (.account rfl)
  have hbudgets : bench.ReachableVia WholeStep (tinyDone file .budgets) :=
    reach_tick hreap (.reaped rfl)
  have hmetrics : bench.ReachableVia WholeStep (tinyDone file .metrics) :=
    reach_tick hbudgets (.budgets false rfl)
  have hgate : bench.ReachableVia WholeStep (tinyDone file .gate) :=
    reach_tick hmetrics (.metrics false false rfl)
  exact reach_tick hgate (.closed rfl)

/-- The row goes to an empty file, and the first invocation leaves. -/
theorem reachable_tinyLeft : bench.ReachableVia WholeStep tinyLeft := by
  -- the row is flushed, and the loop has nothing left
  have hwhole : WholeStep tinyWritten .flush :=
    .inr ⟨⟨[], List.utf8Encode_nil.symm⟩, unbroken_tinyRow⟩
  have hhead : bench.ReachableVia WholeStep (tinyDone tinyWritten.flush.file .head) :=
    reachable_tinyHead (reachable_tinyWritten.step hwhole (.flush rfl))
  have hdone : ¬((tinyDone tinyWritten.flush.file .head).pending ≠ [] ∧
      (tinyDone tinyWritten.flush.file .head).stop = false ∨
      (tinyDone tinyWritten.flush.file .head).inflight ≠ []) := by
    rintro (⟨h, -⟩ | h)
    · exact h rfl
    · exact h rfl
  have hnone : WholeStep (tinyDone tinyWritten.flush.file .head) .flush := .inl rfl
  exact hhead.step hnone (.leave rfl hdone)

/-- What a second invocation finds to do. -/
theorem todoOf_tinyLeft (plan : List Job) : todoOf tinyLeft.file plan
    = some (plan.filter fun j => decide (j.key ∉ finishedKeys [tinyRollout.row])) := by
  have hfile : tinyLeft.file = encodeRows [tinyRollout.row] := by
    show ByteArray.empty ++ encodeRows [tinyRollout.row] ++ encodeRows [] = _
    rw [(onDisk_encodeRows []).eq_empty, ByteArray.append_empty, ByteArray.empty_append]
  rw [hfile]
  exact todoOf_rows (onDisk_encodeRows _) unbroken_tinyRow plan

/-- The second invocation skips the finished job and runs the other one. -/
theorem resume_whole_rows_tiny :
    ∃ rows, Resumable (tinyAt tinyLeft.file (.registered nextJob) [] [nextWaiting]) rows ∧
      tinyJob.key ∈ finishedKeys rows ∧ nextJob.key ∉ finishedKeys rows ∧
      ∃ more, Resumable (tinyAt tinyLeft.file .head [] [nextRunning]) (rows ++ more) := by
  -- the second invocation takes the job that has no row yet
  have htodo : todoOf tinyLeft.file [tinyJob, nextJob] = some [nextJob] :=
    (todoOf_tinyLeft _).trans (congrArg some (by decide))
  have hregistered := reachable_registered reachable_tinyLeft rfl (by decide) htodo
  obtain ⟨rows, hrows, hlater, hrun⟩ := resume_whole_rows hregistered
  refine ⟨rows, hrows, ?_, hrun _ nextJob (step_run _ nextJob), ?_⟩
  · -- the job that is left out has a finished row
    have hnone : todoOf tinyLeft.file [tinyJob] = some [] :=
      (todoOf_tinyLeft _).trans (congrArg some (by decide))
    have hfilter := Option.some.inj ((hrows.todo [tinyJob]).symm.trans hnone)
    have hnot := List.filter_eq_nil_iff.mp hfilter tinyJob List.mem_cons_self
    simpa using hnot
  · exact hlater _ (.step (.init rfl) (show WholeStep _ (.run nextJob) from trivial)
      (step_run _ nextJob))

theorem extract_utf8Encode_cons (cs : List Char) :
    (('{' :: cs).utf8Encode).extract 0 1 = ['{'].utf8Encode := by
  rw [List.utf8Encode_cons]
  exact ByteArray.extract_append_eq_left (by rfl)

/-- A kill leaves the first byte of the row. -/
theorem torn_readJsonl :
    Json.readJsonl (tinyWritten.file ++ (encodeRows tinyWritten.unflushed).extract 0 1) = none := by
  have hlines : ∃ cs, Json.lines (tinyWritten.unflushed.map Row.fields) = '{' :: cs := by
    obtain ⟨cs, hcs⟩ := Json.dumps_eq_cons tinyRollout.row.fields
    exact ⟨cs ++ '\n' :: [], by
      show Json.dumps tinyRollout.row.fields ++ '\n' :: [] ++ [] = _
      rw [hcs, List.append_nil, List.cons_append]⟩
  obtain ⟨cs, hcs⟩ := hlines
  -- the file is the one byte, which is no JSON text
  have hempty : tinyWritten.file = ByteArray.empty := rfl
  rw [hempty, ByteArray.empty_append, encodeRows_eq, hcs, extract_utf8Encode_cons,
    Json.readJsonl_encode]
  rfl

/-- **A torn row is not resumable**: after a kill that leaves one byte of the first row, no
later invocation can read the file, so none has jobs to do. -/
theorem torn_row_not_resumable :
    ¬∀ s plan, bench.Reachable s → s.point = .idle → ∃ rows : List Row,
      todoOf s.file plan = some (plan.filter fun j => decide (j.key ∉ finishedKeys rows)) := by
  intro hall
  have hwritten : bench.Reachable tinyWritten := reachable_tinyWritten.mono fun _ _ _ => trivial
  have hkilled := hwritten.step trivial (Step.kill 1 (by exact Point.noConfusion))
  obtain ⟨rows, hrows⟩ := hall _ [tinyJob] hkilled rfl
  have hnone : todoOf (tinyWritten.file ++ (encodeRows tinyWritten.unflushed).extract 0 1) [tinyJob]
      = none := by
    rw [todoOf, torn_readJsonl]
  exact Option.some_ne_none _ (hrows.symm.trans hnone)

end Dsv41Overlay.Bench
