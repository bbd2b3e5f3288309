import Dsv41Overlay.Lib.Fallible
import Dsv41Overlay.Lib.JsonLines
import Dsv41Overlay.Lib.Lines
import Dsv41Overlay.Lib.TextFile
import Mathlib.Data.List.DropRight

/-!
# Patching a tree of source files

`patch_swa_final_window.py` and `patch_yoco_prefill.py` edit files of the image's vLLM.
Each has a list of jobs: a file, the anchors to replace in it, one after the other, and
a footer to append. A file that carries the script's mark is done; in any other file
each anchor must be found once when its turn comes. All files are read before the first
is written, so that nothing is written unless everything can be.

The two scripts share the code below and differ in their jobs and in when they run at
all (`Script`).
-/

namespace Dsv41Overlay.Patching

/-- What a run can raise. Only the first is caught, and reported for its file. -/
inductive PatchError
  | anchor (found : ℕ) (first : List Char)
  | indexError
  | unicodeDecode
deriving DecidableEq, Repr

/-- What `patch_text` says about a file. -/
inductive Status
  | applied
  | alreadyApplied
deriving DecidableEq, Repr

/-! ### One text -/

/-- `s.strip()`. -/
def strip (s : List Char) : List Char :=
  (s.dropWhile Json.isWhitespace).rdropWhile Json.isWhitespace

/-- `old.strip().splitlines()[0][:80]`, how a message names an anchor. -/
def firstLine (old : List Char) : Except PatchError (List Char) :=
  match Json.splitlines (strip old) with
  | [] => .error .indexError
  | line :: _ => .ok (line.take 80)

/-- What a message needs of an anchor. -/
def Named (old : List (List Char)) : Prop := (firstLine (textOf old)).toBool = true

instance (old : List (List Char)) : Decidable (Named old) := inferInstanceAs (Decidable (_ = _))

theorem Named.of_spelled {ss : List String} {ls : List (List Char)} (h : Spelled ss ls)
    (hls : Named ls) : Named (linesOf ss) := h.linesOf_eq ▸ hls

/-- An anchor and what replaces it, as whole lines that do not overlap themselves. -/
structure Edit where
  old : List String
  new : List String
  nonempty : old ≠ [] := by decide
  distinctive : Distinctive (linesOf old) := by
    exact .of_spelled (by repeat constructor) (by decide +kernel)
  named : Named (linesOf old) := by
    exact .of_spelled (by repeat constructor) (by decide +kernel)

def Edit.oldText (e : Edit) : List Char := textOf (linesOf e.old)

def Edit.newText (e : Edit) : List Char := textOf (linesOf e.new)

/-- The edits of `patch_text`, each applied to what the one before has left. -/
def applyEdits : List Edit → List Char → Except PatchError (List Char)
  | [], text => .ok text
  | e :: edits, text =>
    if count e.oldText text ≠ 1 then do
      let first ← firstLine e.oldText
      throw (.anchor (count e.oldText text) first)
    else applyEdits edits (replaceOnce e.oldText e.newText text)

/-- Append the footer, on a line of its own. -/
def withFooter (text : List Char) : Option (List String) → List Char
  | none => text
  | some footer =>
    if footer = [] then text
    else (if text.getLast? = some '\n' then text else text ++ ['\n']) ++ textOf (linesOf footer)

/-- `patch_text`. -/
def patchText (mark : String) (text : List Char) (edits : List Edit)
    (footer : Option (List String)) : Except PatchError (List Char × Status) :=
  if mark.toList <:+: text then .ok (text, .alreadyApplied)
  else do
    let text ← applyEdits edits text
    return (withFooter text footer, .applied)

/-! ### The tree -/

/-- One entry of `JOBS`. -/
structure Job where
  rel : String
  edits : List Edit
  footer : Option (List String)

/-- The job leaves the mark in its file: in the footer, or else in the last edit. -/
def Job.Marks (mark : String) (job : Job) : Prop :=
  match job.footer with
  | some footer => ∃ l ∈ footer, mark.toList <:+: l.toList
  | none => ∃ e ∈ job.edits.getLast?, ∃ l ∈ e.new, mark.toList <:+: l.toList

instance (mark : String) (job : Job) : Decidable (job.Marks mark) := by
  unfold Job.Marks
  cases job.footer <;> infer_instance

/-- A patch script: its mark, the value of its environment variable that switches it on,
whether it needs the helper of the YOCO overlay, and its jobs, on different files. -/
structure Script where
  mark : String
  mode : String
  needsHelper : Bool
  jobs : List Job
  mark_line : mark.toList ≠ [] ∧ IsLine mark.toList
  nodup : (jobs.map Job.rel).Nodup
  marks : ∀ job ∈ jobs, job.Marks mark

/-- The files below the root, by relative path; `none` where there is no file. -/
abbrev Files := String → Option ByteArray

/-- The environment: the script's variable and whether the helper is a file. -/
structure Env where
  mode : Option String
  helper : Bool

/-- The command line: whether `--root` and `--check` are given. -/
structure Args where
  root : Bool
  check : Bool

/-- How `main` ends. -/
inductive Outcome
  | returned (code : ℕ)
  | raised (e : PatchError)
deriving DecidableEq, Repr

/-- The exit status of the process; an exception that nobody catches makes it 1. -/
def Outcome.status : Outcome → ℕ
  | returned code => code
  | raised _ => 1

/-- What `main` notes about a file. -/
inductive Visit
  | missing
  | drifted (found : ℕ) (first : List Char)
  | out (text : List Char) (status : Status)

def Visit.isError : Visit → Bool
  | missing | drifted .. => true
  | out .. => false

/-- Each anchor stands in the text exactly once when its turn comes. -/
def EachOnce : List Edit → List Char → Prop
  | [], _ => True
  | e :: edits, text => (∃! p, OccursAt e.oldText text p) ∧
      EachOnce edits (replaceOnce e.oldText e.newText text)

/-- A file is there but is not UTF-8. -/
def Unreadable (files : Files) (rel : String) : Prop :=
  ∃ file, files rel = some file ∧ readText file = none

namespace Script

variable (s : Script)

/-- One round of the loop over `JOBS`. -/
def visit (files : Files) (job : Job) : Except PatchError Visit :=
  match files job.rel with
  | none => .ok .missing
  | some file =>
    match readText file with
    | none => .error .unicodeDecode
    | some text =>
      match patchText s.mark text job.edits job.footer with
      | .ok (text, status) => .ok (.out text status)
      | .error (.anchor found first) => .ok (.drifted found first)
      | .error e => .error e

/-- Write one file, if there is something new to write. -/
def write (files : Files) (v : Job × Visit) : Files :=
  match v.2 with
  | .out text .applied => Function.update files v.1.rel (some (writeText text))
  | _ => files

/-- The loop over the files to write. -/
def writeAll (files : Files) (visits : List (Job × Visit)) : Files := visits.foldl write files

/-- The exit before any file is looked at. -/
def gate (env : Env) (args : Args) : Option ℕ :=
  let mode := if env.mode.getD "" = "" then "off" else env.mode.getD ""
  if args.check then none
  else if mode = "off" then some 0
  else if mode ≠ s.mode then some 2
  else if s.needsHelper ∧ args.root = false ∧ env.helper = false then some 1
  else none

/-- `main`. -/
def main (env : Env) (args : Args) (files : Files) : Outcome × Files :=
  match s.gate env args with
  | some code => (.returned code, files)
  | none =>
    match s.jobs.mapM (s.visit files) with
    | .error e => (.raised e, files)
    | .ok visits =>
      if visits.any Visit.isError then (.returned 1, files)
      else if args.check then (.returned 0, files)
      else (.returned 0, writeAll files (s.jobs.zip visits))

/-! ### What a run does -/

/-- A file carries the mark. -/
def Marked (files : Files) (rel : String) : Prop :=
  ∃ file text, files rel = some file ∧ readText file = some text ∧ s.mark.toList <:+: text

/-- A job cannot be done: its file is missing, or is not marked and has an anchor that
does not stand in it exactly once when its turn comes. -/
def Drifted (files : Files) (job : Job) : Prop :=
  files job.rel = none ∨ ∃ file text, files job.rel = some file ∧ readText file = some text ∧
    ¬s.mark.toList <:+: text ∧ ¬EachOnce job.edits text

/-- A run that comes to look at the files. -/
def Reaches (env : Env) (args : Args) : Prop := s.gate env args = none

end Script

theorem Edit.oldText_ne_nil (e : Edit) : e.oldText ≠ [] := textOf_linesOf_ne_nil e.nonempty

/-- The edits go through exactly when each anchor is found once. -/
theorem applyEdits_cases (edits : List Edit) (text : List Char) :
    (EachOnce edits text ∧ ∃ t, applyEdits edits text = .ok t) ∨
    (¬EachOnce edits text ∧
      ∃ n first, applyEdits edits text = .error (.anchor n first)) := by
  induction edits generalizing text with
  | nil => exact .inl ⟨trivial, text, rfl⟩
  | cons e edits ih =>
    -- an anchor of a script overlaps no copy of itself
    have hone := count_eq_one_iff e.oldText_ne_nil e.distinctive.unbordered (s := text)
    rw [applyEdits, EachOnce, ← hone]
    by_cases hcount : count e.oldText text = 1
    -- the first edit applies; the rest works on the text behind it
    · rw [if_neg (not_not.mpr hcount)]
      simpa only [hcount, true_and] using ih (replaceOnce e.oldText e.newText text)
    -- the first anchor is missing or not unique, and the error names it
    · rw [if_pos hcount]
      refine .inr ⟨fun h => hcount h.1, count e.oldText text, ?_⟩
      have hnamed : (firstLine e.oldText).toBool = true := e.named
      cases hfirst : firstLine e.oldText with
      | error err => rw [hfirst] at hnamed; cases hnamed
      | ok first => exact ⟨first, rfl⟩

/-- The last edit leaves its replacement in the text. -/
theorem infix_of_applyEdits {edits : List Edit} {text t : List Char} {e : Edit}
    (he : e ∈ edits.getLast?) (h : applyEdits edits text = .ok t) : e.newText <:+: t := by
  induction edits generalizing text with
  | nil => cases he
  | cons d edits ih =>
    rw [applyEdits] at h
    by_cases hcount : count d.oldText text = 1
    -- the last edit leaves its new text, and an earlier one leaves the rest to do
    · rw [if_neg (not_not.mpr hcount)] at h
      cases edits with
      | nil =>
        obtain rfl := Option.some.inj he
        obtain rfl := Except.ok.inj h
        refine infix_replaceOnce ?_ _
        -- the anchor occurs, since it is there once
        by_contra hnone
        rw [(count_eq_zero_iff d.oldText_ne_nil).mpr hnone] at hcount
        cases hcount
      | cons d' edits => exact ih he h
    · rw [if_pos hcount] at h
      obtain ⟨first, -, h⟩ := Fallible.bind_eq_ok.mp h
      cases h

/-- **What `patch_text` returns carries the mark.** -/
theorem Job.Marks.stands {mark : String} {job : Job} (hmarks : job.Marks mark)
    {text t : List Char} (h : applyEdits job.edits text = .ok t) :
    mark.toList <:+: withFooter t job.footer := by
  rw [Job.Marks] at hmarks
  cases hfooter : job.footer with
  -- the mark stands in the footer
  | some footer =>
    rw [hfooter] at hmarks
    obtain ⟨l, hl, hmark⟩ := hmarks
    rw [withFooter, if_neg (List.ne_nil_of_mem hl)]
    exact (infix_textOf (List.mem_map_of_mem hl) hmark).trans (List.suffix_append _ _).isInfix
  | none =>
    rw [hfooter] at hmarks
    -- the mark stands in the new text of the last edit
    obtain ⟨e, he, l, hl, hmark⟩ := hmarks
    exact (infix_textOf (List.mem_map_of_mem hl) hmark).trans (infix_of_applyEdits he h)

namespace Script

variable {s : Script} {job : Job}

/-- **One file**: unreadable, not to be patched, or patched. -/
theorem visit_cases (files : Files) (hjob : job ∈ s.jobs) :
    (Unreadable files job.rel ∧ s.visit files job = .error .unicodeDecode) ∨
    (¬Unreadable files job.rel ∧ s.Drifted files job ∧
      ∃ v, s.visit files job = .ok v ∧ v.isError = true) ∨
    (¬Unreadable files job.rel ∧ ¬s.Drifted files job ∧ ∃ t status,
      s.visit files job = .ok (.out t status) ∧ s.mark.toList <:+: t ∧
      (status = .alreadyApplied ↔ s.Marked files job.rel)) := by
  rw [visit]
  cases hfile : files job.rel with
  | none =>
    -- a missing file is drift
    refine .inr (.inl ⟨?_, .inl hfile, .missing, rfl, rfl⟩)
    rintro ⟨file, hf, -⟩
    rw [hfile] at hf
    cases hf
  | some file =>
    dsimp only
    cases hread : readText file with
    | none => exact .inl ⟨⟨file, hfile, hread⟩, rfl⟩
    | some text =>
      -- The text is the only one the file can be read as.
      have hunreadable : ¬Unreadable files job.rel := by
        rintro ⟨file', hf, hr⟩
        obtain rfl := Option.some.inj (hfile.symm.trans hf)
        rw [hread] at hr
        cases hr
      have hdrifted : s.Drifted files job ↔
          ¬s.mark.toList <:+: text ∧ ¬EachOnce job.edits text := by
        constructor
        · rintro (hnone | ⟨file', text', hf, hr, h⟩)
          · rw [hfile] at hnone
            cases hnone
          · obtain rfl := Option.some.inj (hfile.symm.trans hf)
            obtain rfl := Option.some.inj (hread.symm.trans hr)
            exact h
        · intro h
          exact .inr ⟨file, text, hfile, hread, h⟩
      have hmarked : s.Marked files job.rel ↔ s.mark.toList <:+: text := by
        constructor
        · rintro ⟨file', text', hf, hr, h⟩
          obtain rfl := Option.some.inj (hfile.symm.trans hf)
          obtain rfl := Option.some.inj (hread.symm.trans hr)
          exact h
        · intro h
          exact ⟨file, text, hfile, hread, h⟩
      dsimp only
      rw [patchText]
      -- a marked text is left alone
      by_cases hmark : s.mark.toList <:+: text
      · rw [if_pos hmark]
        refine .inr (.inr ⟨hunreadable, fun h => (hdrifted.mp h).1 hmark, text, .alreadyApplied,
          rfl, hmark, ?_⟩)
        exact ⟨fun _ => hmarked.mpr hmark, fun _ => rfl⟩
      -- an unmarked one is edited, if every anchor is there once
      · rw [if_neg hmark]
        obtain ⟨honce, t, ht⟩ | ⟨honce, n, first, herr⟩ := applyEdits_cases job.edits text
        · rw [ht]
          refine .inr (.inr ⟨hunreadable, fun h => (hdrifted.mp h).2 honce,
            withFooter t job.footer, .applied, rfl, (s.marks job hjob).stands ht, ?_⟩)
          exact ⟨fun h => (by cases h), fun h => absurd (hmarked.mp h) hmark⟩
        -- the edits stop at an anchor that is not
        · rw [herr]
          exact .inr (.inl ⟨hunreadable, hdrifted.mpr ⟨hmark, honce⟩, .drifted n first, rfl, rfl⟩)

end Script

end Dsv41Overlay.Patching
