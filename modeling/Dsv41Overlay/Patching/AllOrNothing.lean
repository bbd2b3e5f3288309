import Dsv41Overlay.Patching.Runs
import Dsv41Overlay.Patching.SwaFinalWindow
import Dsv41Overlay.Patching.XgrammarTermination
import Dsv41Overlay.Patching.YocoPrefill

/-!
# The three patches of the overlay

Patching a tree is all or nothing, and idempotent. The final-window and YOCO scripts
differ in their jobs only, so `Script.allOrNothing` covers both; the XGrammar script
prepares two texts, and what it lets pass is upstream and passes again as it is.
-/

namespace Dsv41Overlay.Patching

open SwaFinalWindow (swaFinalWindow)
open YocoPrefill (yocoPrefill)

/-- A tree with files that are not UTF-8. -/
def undecodable : Files := fun _ => some (ByteArray.mk #[0xff])

theorem undecodable_unreadable (rel : String) : Unreadable undecodable rel := by
  have hdecode : (ByteArray.mk #[0xff]).utf8Decode? = none := by decide +kernel
  refine ⟨_, rfl, ?_⟩
  rw [readText, hdecode, Option.map_none]

/-- A run need not return at all: with a target that is not UTF-8 it raises. -/
theorem not_always_returns :
    ¬∀ (env : Env) (args : Args) (files : Files), swaFinalWindow.Reaches env args →
      (∃ code ≠ 0, swaFinalWindow.main env args files = (.returned code, files)) ∨
      ∃ files', swaFinalWindow.main env args files = (.returned 0, files') ∧
        ∀ job ∈ swaFinalWindow.jobs, swaFinalWindow.Marked files' job.rel := by
  intro h
  -- one target file cannot be decoded, so reading it raises
  have hreach : swaFinalWindow.Reaches ⟨some "keep", false⟩ ⟨true, false⟩ := rfl
  have hraised : swaFinalWindow.main ⟨some "keep", false⟩ ⟨true, false⟩ undecodable =
      (.raised .unicodeDecode, undecodable) :=
    Script.main_unreadable hreach
      ⟨SwaFinalWindow.singleTypeKvCacheManager, List.mem_cons_self, undecodable_unreadable _⟩
  -- neither of the two outcomes is an exception
  obtain ⟨code, -, hmain⟩ | ⟨files', hmain, -⟩ := h _ _ undecodable hreach
  · rw [hraised] at hmain
    cases (Prod.mk.inj hmain).1
  · rw [hraised] at hmain
    cases (Prod.mk.inj hmain).1

/-- **Patching is all or nothing, and idempotent.** -/
theorem patching_allOrNothing :
    swaFinalWindow.AllOrNothing ∧ yocoPrefill.AllOrNothing ∧
      (∀ source t action, XgrammarTermination.prepareBackend source = .ok (t, action) →
        XgrammarTermination.backend.Upstream t ∧
          ∃ action', XgrammarTermination.prepareBackend t = .ok (t, action')) ∧
      (∀ source t action, XgrammarTermination.prepareManager source = .ok (t, action) →
        XgrammarTermination.manager.Upstream t ∧
          ∃ action', XgrammarTermination.prepareManager t = .ok (t, action')) ∧
      ∀ compiles backendTarget managerTarget disk source source',
        XgrammarTermination.readTarget disk backendTarget = .ok source →
        XgrammarTermination.readTarget disk managerTarget = .ok source' →
        (∃ e, XgrammarTermination.prepareBackend source = .error e ∨
          XgrammarTermination.prepareManager source' = .error e) →
        ∃ stop, XgrammarTermination.main compiles backendTarget managerTarget disk =
          (.error stop, disk) := by
  refine ⟨swaFinalWindow.allOrNothing, yocoPrefill.allOrNothing, ?_, ?_, ?_⟩
  · exact fun source t action h => ⟨Backport.prepare_spec h, _, Backport.prepare_again h⟩
  · exact fun source t action h => ⟨Backport.prepare_spec h, _, Backport.prepare_again h⟩
  · rintro compiles backendTarget managerTarget disk source source' hsource hsource' ⟨e, herr⟩
    exact XgrammarTermination.main_refused hsource hsource' herr

/-- A tree in which one target of the final-window patch is marked and the other one holds
just its anchors. -/
def halfPatched : Files :=
  Function.update
    (Function.update (fun _ => none) SwaFinalWindow.kvCacheManager.rel
      (some (writeText (SwaFinalWindow.kvCacheManager.edits.flatMap Edit.oldText))))
    SwaFinalWindow.singleTypeKvCacheManager.rel (some (writeText swaFinalWindow.mark.toList))

/-- A written file stands in no run's way when it is marked or has its anchors. -/
theorem clear_of_written {s : Script} {files : Files} {job : Job} {text : List Char}
    (hfile : files job.rel = some (writeText text))
    (h : s.mark.toList <:+: universalNewlines text ∨
      EachOnce job.edits (universalNewlines text)) :
    ¬Unreadable files job.rel ∧ ¬s.Drifted files job := by
  constructor
  -- the text that was written is the one that is read
  · rintro ⟨file, hfile', hnone⟩
    obtain rfl := Option.some.inj (hfile.symm.trans hfile')
    rw [readText_writeText] at hnone
    cases hnone
  -- and it carries the mark or every anchor once
  · rintro (hnone | ⟨file, text', hfile', hread, hmark, honce⟩)
    · rw [hfile] at hnone
      cases hnone
    · obtain rfl := Option.some.inj (hfile.symm.trans hfile')
      obtain rfl := Option.some.inj ((readText_writeText _).symm.trans hread)
      exact h.elim hmark honce

theorem halfPatched_clear : ∀ job ∈ swaFinalWindow.jobs,
    ¬Unreadable halfPatched job.rel ∧ ¬swaFinalWindow.Drifted halfPatched job := by
  have hne : SwaFinalWindow.kvCacheManager.rel ≠ SwaFinalWindow.singleTypeKvCacheManager.rel := by
    decide
  refine List.forall_mem_cons.mpr ⟨?_, List.forall_mem_singleton.mpr ?_⟩
  -- one file is patched already, the other has every anchor of its edits once
  · exact clear_of_written (Function.update_self ..) (.inl (by decide +kernel))
  · refine clear_of_written ((Function.update_of_ne hne _ _).trans (Function.update_self ..))
      (.inr ?_)
    have hok : (applyEdits SwaFinalWindow.kvCacheManager.edits (universalNewlines
        (SwaFinalWindow.kvCacheManager.edits.flatMap Edit.oldText))).toBool = true := by
      decide +kernel
    -- an edit fails only where an anchor is missing or not unique
    obtain ⟨h, -⟩ | ⟨-, n, first, herr⟩ := applyEdits_cases SwaFinalWindow.kvCacheManager.edits
      (universalNewlines (SwaFinalWindow.kvCacheManager.edits.flatMap Edit.oldText))
    · exact h
    · rw [herr] at hok
      cases hok

theorem patching_allOrNothing_sample :
    (∃ files, swaFinalWindow.main ⟨some "keep", false⟩ ⟨true, false⟩ halfPatched =
        (.returned 0, files) ∧
      swaFinalWindow.main ⟨none, false⟩ ⟨true, true⟩ files = (.returned 0, files)) ∧
      yocoPrefill.main ⟨some "compact", true⟩ ⟨false, false⟩ (fun _ => none) =
        (.returned 1, fun _ => none) := by
  constructor
  -- the first run patches, and a second one under other settings changes nothing
  · obtain ⟨files, hmain, -, -, hagain⟩ :=
      patching_allOrNothing.1.patched ⟨some "keep", false⟩ ⟨true, false⟩ halfPatched rfl rfl
        halfPatched_clear
    exact ⟨files, hmain, hagain ⟨none, false⟩ ⟨true, true⟩ rfl⟩
  -- the second script finds no file at all
  · refine patching_allOrNothing.2.1.drifted ⟨some "compact", true⟩ ⟨false, false⟩ _ rfl ?_
      ⟨YocoPrefill.model, List.mem_cons_self, .inl rfl⟩
    rintro job hjob ⟨file, hfile, -⟩
    cases hfile

end Dsv41Overlay.Patching
