import Dsv41Overlay.Patching.Tree

/-!
# Runs of a patch script

A run that comes to look at the files either changes none of them or leaves the mark in
every target (`Script.allOrNothing`). After the second it has nothing left to do: any
further run, with or without `--check`, reports success and changes nothing, since it
finds the mark wherever it looks.

A target that is not UTF-8 is the one case where `main` does not return: `read_text`
raises, and only anchor errors are caught. No file has been written by then.
-/

namespace Dsv41Overlay.Patching

namespace Script

variable {s : Script} {files : Files}

theorem write_eq_self {v : Job × Visit} (h : ∀ t, v.2 ≠ .out t .applied) (files : Files) :
    write files v = files := by
  rw [write]
  split
  · next t ht => exact absurd ht (h t)
  · rfl

/-- What the run writes at a path: nothing new outside the targets and at targets that
are done, and the patched text at the others. -/
theorem writeAll_apply {visits : List (Job × Visit)}
    (hnodup : (visits.map fun v => v.1.rel).Nodup) (files : Files) (rel : String) :
    (writeAll files visits rel = files rel ∧
      ∀ v ∈ visits, v.1.rel = rel → ∀ t, v.2 ≠ .out t .applied) ∨
    ∃ v ∈ visits, v.1.rel = rel ∧ ∃ t, v.2 = .out t .applied ∧
      writeAll files visits rel = some (writeText t) := by
  induction visits generalizing files with
  | nil => exact .inl ⟨rfl, fun v hv => by cases hv⟩
  | cons v visits ih =>
    rw [List.map_cons, List.nodup_cons] at hnodup
    obtain ⟨hv, hnodup⟩ := hnodup
    rw [writeAll, List.foldl_cons]
    change (writeAll (write files v) visits rel = _ ∧ _) ∨ ∃ w ∈ _, _ ∧ ∃ t, _ ∧
      writeAll (write files v) visits rel = _
    -- what the later writes do, after the first one
    obtain ⟨hsame, hnone⟩ | ⟨w, hw, hrel, t, ht, hwrite⟩ := ih hnodup (write files v)
    -- none of them touches this path, so the first one decides
    · rw [hsame]
      by_cases happlied : ∃ t, v.2 = .out t .applied
      · obtain ⟨t, ht⟩ := happlied
        rw [write, ht]
        dsimp only
        by_cases hrel : v.1.rel = rel
        · refine .inr ⟨v, List.mem_cons_self, hrel, t, ht, ?_⟩
          rw [← hrel, Function.update_self]
        · refine .inl ⟨Function.update_of_ne (Ne.symm hrel) _ _, ?_⟩
          exact List.forall_mem_cons.mpr ⟨fun h => absurd h hrel, hnone⟩
      · have hnot : ∀ t, v.2 ≠ .out t .applied := fun t ht => happlied ⟨t, ht⟩
        rw [write_eq_self hnot]
        exact .inl ⟨rfl, List.forall_mem_cons.mpr ⟨fun _ => hnot, hnone⟩⟩
    -- one of them does
    · exact .inr ⟨w, List.mem_cons_of_mem v hw, hrel, t, ht, hwrite⟩

/-- Without an unreadable target every file is visited. -/
theorem exists_visits (h : ∀ job ∈ s.jobs, ¬Unreadable files job.rel) :
    ∃ visits, s.jobs.mapM (s.visit files) = .ok visits := by
  refine Fallible.exists_mapM_eq_ok.mpr fun job hjob => ?_
  obtain ⟨hun, -⟩ | ⟨-, -, v, hv, -⟩ | ⟨-, -, t, status, hv, -⟩ := visit_cases files hjob
  · exact absurd hun (h job hjob)
  · exact ⟨v, hv⟩
  · exact ⟨_, hv⟩

/-- An unreadable target ends the run. -/
theorem main_unreadable {env : Env} {args : Args} (hreach : s.Reaches env args)
    (h : ∃ job ∈ s.jobs, Unreadable files job.rel) :
    s.main env args files = (.raised .unicodeDecode, files) := by
  rw [main, hreach]
  dsimp only
  cases hvisits : s.jobs.mapM (s.visit files) with
  | ok visits =>
    -- a target that cannot be read is not visited
    obtain ⟨job, hjob, hun⟩ := h
    obtain ⟨v, hv⟩ := Fallible.exists_mapM_eq_ok.mp ⟨visits, hvisits⟩ job hjob
    obtain ⟨-, herr⟩ | ⟨hnot, -⟩ | ⟨hnot, -⟩ := visit_cases files hjob
    · rw [herr] at hv
      cases hv
    · exact absurd hun hnot
    · exact absurd hun hnot
  | error e =>
    obtain ⟨job, hjob, herr⟩ := Fallible.exists_of_mapM_eq_error hvisits
    -- the error of a visit is that of its file
    obtain ⟨-, hv⟩ | ⟨-, -, v, hv, -⟩ | ⟨-, -, t, status, hv, -⟩ :=
      visit_cases files hjob
    · rw [Except.error.inj (herr.symm.trans hv)]
    · rw [herr] at hv
      cases hv
    · rw [herr] at hv
      cases hv

/-- A drifted target makes the run fail. -/
theorem main_drifted {env : Env} {args : Args} (hreach : s.Reaches env args)
    (hread : ∀ job ∈ s.jobs, ¬Unreadable files job.rel)
    (h : ∃ job ∈ s.jobs, s.Drifted files job) :
    s.main env args files = (.returned 1, files) := by
  obtain ⟨visits, hvisits⟩ := exists_visits hread
  rw [main, hreach, hvisits]
  obtain ⟨job, hjob, hdrifted⟩ := h
  -- one visit reports an error
  have herror : visits.any Visit.isError = true := by
    obtain ⟨v, hv, hjv⟩ := Fallible.exists_mem_zip_left hvisits hjob
    obtain ⟨hun, -⟩ | ⟨-, -, w, hw, herror⟩ | ⟨-, hnot, -⟩ := visit_cases files hjob
    · exact absurd hun (hread job hjob)
    · obtain rfl := Except.ok.inj (hjv.symm.trans hw)
      exact List.any_eq_true.mpr ⟨v, (List.of_mem_zip hv).2, herror⟩
    · exact absurd hdrifted hnot
  dsimp only
  rw [if_pos herror]

/-- What a run finds and does when no target stands in its way. -/
theorem main_clear {env : Env} {args : Args} (hreach : s.Reaches env args)
    (hread : ∀ job ∈ s.jobs, ¬Unreadable files job.rel)
    (hclear : ∀ job ∈ s.jobs, ¬s.Drifted files job) :
    ∃ visits, s.jobs.mapM (s.visit files) = .ok visits ∧
      s.main env args files =
        (.returned 0, if args.check then files else writeAll files (s.jobs.zip visits)) := by
  obtain ⟨visits, hvisits⟩ := exists_visits hread
  refine ⟨visits, hvisits, ?_⟩
  -- no visit reports one
  have hnone : visits.any Visit.isError = false := by
    rw [List.any_eq_false]
    intro v hv herror
    obtain ⟨job, hjob, hjv⟩ := Fallible.exists_mem_zip_right hvisits hv
    obtain ⟨hun, -⟩ | ⟨-, hdrifted, -⟩ | ⟨-, -, t, status, hout, -⟩ :=
      visit_cases files hjob
    · exact hread job hjob hun
    · exact hclear job hjob hdrifted
    · obtain rfl := Except.ok.inj (hjv.symm.trans hout)
      cases herror
  rw [main, hreach, hvisits]
  dsimp only
  rw [hnone, if_neg Bool.false_ne_true]
  split <;> rfl

/-- **A further run has nothing to do** once every target carries the mark. -/
theorem main_of_marked {env : Env} {args : Args} (hreach : s.Reaches env args)
    (h : ∀ job ∈ s.jobs, s.Marked files job.rel) :
    s.main env args files = (.returned 0, files) := by
  have hread : ∀ job ∈ s.jobs, ¬Unreadable files job.rel := by
    rintro job hjob ⟨file, hfile, hnone⟩
    obtain ⟨file', text, hfile', hread, -⟩ := h job hjob
    obtain rfl := Option.some.inj (hfile.symm.trans hfile')
    rw [hread] at hnone
    cases hnone
  -- a marked file has no drifted anchor
  have hclear : ∀ job ∈ s.jobs, ¬s.Drifted files job := by
    rintro job hjob (hnone | ⟨file, text, hfile, hread, hmark, -⟩)
    · obtain ⟨file, _, hfile, -⟩ := h job hjob
      rw [hfile] at hnone
      cases hnone
    · obtain ⟨file', text', hfile', hread', hmark'⟩ := h job hjob
      obtain rfl := Option.some.inj (hfile.symm.trans hfile')
      obtain rfl := Option.some.inj (hread.symm.trans hread')
      exact hmark hmark'
  obtain ⟨visits, hvisits, hmain⟩ := main_clear hreach hread hclear
  -- and no edit is applied to it
  have hsame : writeAll files (s.jobs.zip visits) = files := by
    -- a visit that applies edits is one of an unmarked file
    have hnot : ∀ v ∈ s.jobs.zip visits, ∀ t, v.2 ≠ .out t .applied := by
      rintro ⟨job, v⟩ hv t rfl
      have hjob := (List.of_mem_zip hv).1
      have hjv := Fallible.eq_ok_of_mem_zip hvisits hv
      obtain ⟨-, herr⟩ | ⟨-, hdrifted, -⟩ | ⟨-, -, t', status, hout, -, hstatus⟩ :=
        visit_cases files hjob
      · rw [hjv] at herr
        cases herr
      · exact hclear job hjob hdrifted
      · rw [hjv] at hout
        obtain ⟨-, rfl⟩ := Visit.out.inj (Except.ok.inj hout)
        cases hstatus.mpr (h job hjob)
    revert hnot
    generalize s.jobs.zip visits = zipped
    intro hnot
    induction zipped with
    | nil => rfl
    | cons v zipped ih =>
      rw [writeAll, List.foldl_cons, write_eq_self (hnot v List.mem_cons_self)]
      exact ih fun w hw => hnot w (List.mem_cons_of_mem v hw)
  rw [hmain, hsame, ite_self]

/-- A run changes targets that are not marked, and leaves the mark in each. -/
theorem writeAll_spec {visits : List (Job × Visit)} {results : List Visit}
    (hzip : visits = s.jobs.zip results) (hvisits : s.jobs.mapM (s.visit files) = .ok results)
    (rel : String) :
    (writeAll files visits rel = files rel ∧
      ∀ job ∈ s.jobs, job.rel = rel → (∃ t status, s.visit files job = .ok (.out t status)) →
        s.Marked files rel) ∨
    (∃ job ∈ s.jobs, job.rel = rel) ∧ ¬s.Marked files rel ∧
      s.Marked (writeAll files visits) rel := by
  -- one visit for each job, and the jobs have different paths
  have hlength := (Fallible.mapM_eq_ok.mp hvisits).length_eq
  have hnodup : (visits.map fun v => v.1.rel).Nodup := by
    have hfst : visits.map Prod.fst = s.jobs := by rw [hzip, List.map_fst_zip hlength.le]
    have hrel := s.nodup
    rw [← hfst, List.map_map] at hrel
    exact hrel
  subst hzip
  obtain ⟨hsame, hnone⟩ | ⟨⟨job, v⟩, hv, rfl, t, rfl, hwrite⟩ := writeAll_apply hnodup files rel
  -- nothing was written to the path: the visit of its job found the mark
  · refine .inl ⟨hsame, ?_⟩
    rintro job hjob rfl ⟨t, status, hout⟩
    obtain ⟨v, hv, hjv⟩ := Fallible.exists_mem_zip_left hvisits hjob
    obtain rfl := Except.ok.inj (hjv.symm.trans hout)
    obtain ⟨-, herr⟩ | ⟨-, -, w, hw, herror⟩ | ⟨-, -, t', status', hout', -, hstatus⟩ :=
      visit_cases files hjob
    · rw [hout] at herr
      cases herr
    · obtain rfl := Except.ok.inj (hout.symm.trans hw)
      cases herror
    · obtain ⟨rfl, rfl⟩ := Visit.out.inj (Except.ok.inj (hout.symm.trans hout'))
      refine hstatus.mp ?_
      cases status with
      | applied => exact absurd rfl (hnone _ hv rfl t)
      | alreadyApplied => rfl
  -- the path was written: it had no mark and has one now
  · have hjob := (List.of_mem_zip hv).1
    have hjv := Fallible.eq_ok_of_mem_zip hvisits hv
    refine .inr ⟨⟨job, hjob, rfl⟩, ?_⟩
    obtain ⟨-, herr⟩ | ⟨-, -, w, hw, herror⟩ | ⟨-, -, t', status', hout', hmark, hstatus⟩ :=
      visit_cases files hjob
    · rw [hjv] at herr
      cases herr
    · obtain rfl := Except.ok.inj (hjv.symm.trans hw)
      cases herror
    · obtain ⟨rfl, rfl⟩ := Visit.out.inj (Except.ok.inj (hjv.symm.trans hout'))
      refine ⟨fun hmarked => (by cases hstatus.mpr hmarked), _, _, hwrite,
        readText_writeText t, ?_⟩
      exact infix_universalNewlines s.mark_line.1 s.mark_line.2.2 s.mark_line.2.1 hmark

/-- Patching is all or nothing, and idempotent. A run that stops at the gate changes no
file. A run that comes to look at the files ends with the decoder's exception when a
target is not UTF-8, returns 1 when a target is missing or has drifted, and changes no
file in either case; returns 0 otherwise. It then changes nothing under `--check`;
without it, it leaves the mark in every target and all other files and the targets marked
before as they are, and after it every run returns 0 and changes nothing. -/
structure AllOrNothing (s : Script) : Prop where
  stopped : ∀ env args files code, s.gate env args = some code →
    s.main env args files = (.returned code, files)
  unreadable : ∀ env args files, s.Reaches env args →
    (∃ job ∈ s.jobs, Unreadable files job.rel) →
      s.main env args files = (.raised .unicodeDecode, files)
  drifted : ∀ env args files, s.Reaches env args →
    (∀ job ∈ s.jobs, ¬Unreadable files job.rel) → (∃ job ∈ s.jobs, s.Drifted files job) →
      s.main env args files = (.returned 1, files)
  checked : ∀ env args files, s.Reaches env args → args.check = true →
    (∀ job ∈ s.jobs, ¬Unreadable files job.rel ∧ ¬s.Drifted files job) →
      s.main env args files = (.returned 0, files)
  patched : ∀ env args files, s.Reaches env args → args.check = false →
    (∀ job ∈ s.jobs, ¬Unreadable files job.rel ∧ ¬s.Drifted files job) →
      ∃ files', s.main env args files = (.returned 0, files') ∧
        (∀ job ∈ s.jobs, s.Marked files' job.rel) ∧
        (∀ rel, (∀ job ∈ s.jobs, job.rel ≠ rel) ∨ s.Marked files rel → files' rel = files rel) ∧
        ∀ env' args', s.Reaches env' args' → s.main env' args' files' = (.returned 0, files')

/-- **Every script is all or nothing.** -/
theorem allOrNothing (s : Script) : s.AllOrNothing where
  stopped _ _ _ _ hgate := by rw [main, hgate]
  unreadable _ _ _ hreach h := main_unreadable hreach h
  drifted _ _ _ hreach hread h := main_drifted hreach hread h
  checked env args files hreach hcheck hclear := by
    obtain ⟨visits, -, hmain⟩ :=
      main_clear hreach (fun job hjob => (hclear job hjob).1) fun job hjob => (hclear job hjob).2
    rw [hmain, if_pos hcheck]
  -- every job is applied or already marked
  patched env args files hreach hcheck hclear := by
    obtain ⟨visits, hvisits, hmain⟩ :=
      main_clear hreach (fun job hjob => (hclear job hjob).1) fun job hjob => (hclear job hjob).2
    rw [hcheck, if_neg Bool.false_ne_true] at hmain
    have hspec := writeAll_spec rfl hvisits
    -- after the run every target carries the mark
    have hmarked : ∀ job ∈ s.jobs, s.Marked (writeAll files (s.jobs.zip visits)) job.rel := by
      intro job hjob
      obtain ⟨hsame, hold⟩ | ⟨-, -, hnew⟩ := hspec job.rel
      · obtain ⟨hun, -⟩ | ⟨-, hdrifted, -⟩ | ⟨-, -, t, status, hout, -⟩ := visit_cases files hjob
        · exact absurd hun (hclear job hjob).1
        · exact absurd hdrifted (hclear job hjob).2
        · obtain ⟨file, text, hfile, hread, hmark⟩ := hold job hjob rfl ⟨t, status, hout⟩
          exact ⟨file, text, hsame.trans hfile, hread, hmark⟩
      · exact hnew
    refine ⟨_, hmain, hmarked, fun rel hrel => ?_, fun _ _ hreach' =>
      main_of_marked hreach' hmarked⟩
    -- a path without a job, or one that was marked before, is as it was
    obtain ⟨hsame, -⟩ | ⟨⟨job, hjob, hjrel⟩, hnot, -⟩ := hspec rel
    · exact hsame
    · obtain htarget | hmark := hrel
      · exact absurd hjrel (htarget job hjob)
      · exact absurd hmark hnot

end Script

end Dsv41Overlay.Patching
