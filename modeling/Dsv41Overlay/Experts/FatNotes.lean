import Dsv41Overlay.Experts.FatLoop
import Dsv41Overlay.Lib.CtaNotes

/-!
# What a thread of the fat kernels passes

A thread reads each K tile of a segment once and in order, ends the main loop with the products of
them all, and writes the segment's blocks of rows (`notes`). That its program has these notes does
not depend on what it reads (`block_notes`); that they carry what the K tiles hold does, and comes
from the plan (`eq_planned_of_noted`).
-/

namespace Dsv41Overlay.Experts

open Cta Cta.Plan FmConfig

universe u

variable {V : Type u}

namespace FmKernel

variable (κ : FmKernel V) (t : FmTid) (g : FmSegment κ.toFmConfig V)

/-- The note with what belongs into it. -/
def planned : FmNote κ.toFmConfig V → FmNote κ.toFmConfig V
  | .start g => .start g
  | .fragsB g kt j _ => .fragsB g kt j (κ.fragsB g t kt j)
  | .fragsA g kt j mb _ => .fragsA g kt j mb (κ.fragsA g t kt j mb)
  | .accumulated g _ => .accumulated g (κ.accumulated g t)
  | .stageAcc g mb => .stageAcc g mb

/-- Both sub-steps of K tile `kt`. -/
def tileNotes (kt : ℕ) : List (FmNote κ.toFmConfig V) :=
  (List.range 2).flatMap fun j => .fragsB g kt j (κ.fragsB g t kt j) ::
    (List.range κ.mb).map fun mb => .fragsA g kt j mb (κ.fragsA g t kt j mb)

/-- A segment: every K tile, their products, and every block of rows. -/
def segmentNotes : List (FmNote κ.toFmConfig V) :=
  .start g :: ((List.range κ.kTiles).flatMap (κ.tileNotes t g) ++
    .accumulated g ((List.range κ.kTiles).flatMap (κ.products g t)) ::
      (List.range (κ.blocks g)).map (.stageAcc g))

/-- What thread `t` passes in a block over these segments. -/
def notes (gs : List (FmSegment κ.toFmConfig V)) : List (FmNote κ.toFmConfig V) :=
  gs.flatMap (κ.segmentNotes t)

variable {κ t g} {l : List (FmNote κ.toFmConfig V)}

/-- **The plan has the right notes.** -/
theorem eq_planned_of_noted {segs : List (FmSegment κ.toFmConfig V)} {mem : ℕ → V} {p : ℕ}
    {x : FmNote κ.toFmConfig V} {D : ℕ → Prop} (h : (κ.plan segs mem).noted p t x D) :
    κ.planned t x = x := by
  cases x with
  | start g => rfl
  | fragsB g kt j fb => exact congrArg (FmNote.fragsB g kt j) h.2.symm
  | fragsA g kt j mb fa => exact congrArg (FmNote.fragsA g kt j mb) h.2.symm
  | accumulated g acc => exact congrArg (FmNote.accumulated g) h.2.symm
  | stageAcc g mb => rfl

/-! ### The notes of the programs -/

/-- Loading passes no note. -/
theorem loadTile_notes {kt : ℕ} {k : FmProg κ.toFmConfig V} (hk : k.Notes (κ.planned t) l) :
    (κ.loadTile g t kt k).Notes (κ.planned t) l := by
  rw [loadTile]
  split
  · rw [loadStage_eq]
    exact Prog.Notes.copies hk
  · exact hk

theorem subStep_notes {kt j : ℕ} {acc : List (FmMma V)}
    {k : List (FmMma V) → FmProg κ.toFmConfig V} (hk : ∀ acc, (k acc).Notes (κ.planned t) l) :
    (κ.subStep g t kt j acc k).Notes (κ.planned t)
      (.fragsB g kt j (κ.fragsB g t kt j) ::
        (List.range κ.mb).map (fun mb => .fragsA g kt j mb (κ.fragsA g t kt j mb)) ++ l) := by
  rw [subStep, List.map_eq_flatMap]
  refine Prog.Notes.gathers fun fb =>
    Prog.Notes.note (Prog.Notes.fold (fun mb _ acc k l hk => ?_) hk)
  exact Prog.Notes.gathers fun fa => Prog.Notes.note (hk _)

/-- **An iteration** reads its K tile, whatever was accumulated before. -/
theorem iteration_notes {kt : ℕ} {acc : List (FmMma V)}
    {k : List (FmMma V) → FmProg κ.toFmConfig V} (hk : ∀ acc, (k acc).Notes (κ.planned t) l) :
    (κ.iteration g t kt acc k).Notes (κ.planned t) (κ.tileNotes t g kt ++ l) :=
  Prog.Notes.wait <| Prog.Notes.sync <| loadTile_notes <|
    Prog.Notes.fold (fun _ _ _ _ _ hk => subStep_notes hk) hk

theorem mainloop_notes {k : List (FmMma V) → FmProg κ.toFmConfig V}
    (hk : ∀ acc, (k acc).Notes (κ.planned t) l) :
    (κ.mainloop g t k).Notes (κ.planned t)
      ((List.range κ.kTiles).flatMap (κ.tileNotes t g) ++
        .accumulated g ((List.range κ.kTiles).flatMap (κ.products g t)) :: l) := by
  -- the prologue of three tiles only loads
  have hprologue : ∀ {k : FmProg κ.toFmConfig V} {l}, k.Notes (κ.planned t) l →
      (Prog.each (κ.loadTile g t) (List.range 3) k).Notes (κ.planned t) l :=
    fun hk => loadTile_notes (loadTile_notes (loadTile_notes hk))
  refine hprologue (Prog.Notes.fold (fun _ _ _ _ _ hk => iteration_notes hk) fun acc => ?_)
  exact Prog.Notes.wait (Prog.Notes.sync (Prog.Notes.note (hk acc)))

/-- **The epilogue** comes to every block of rows that the segment has. -/
theorem epilogue_notes {acc : List (FmMma V)} {k : FmProg κ.toFmConfig V}
    (hk : k.Notes (κ.planned t) l) {m : ℕ} (mb : ℕ) (hm : mb + m = κ.mb) :
    (κ.epilogue g t acc (List.range' mb m) k).Notes (κ.planned t)
      ((List.range' mb (κ.blocks g - mb)).map (.stageAcc g) ++ l) := by
  have hrows := g.rows_le
  rw [tileM] at hrows
  -- without a block left the epilogue is over
  have hend : κ.blocks g ≤ mb → k.Notes (κ.planned t)
      ((List.range' mb (κ.blocks g - mb)).map (.stageAcc g) ++ l) := by
    intro hle
    rwa [Nat.sub_eq_zero_of_le hle]
  induction m generalizing mb with
  | zero => exact hend (by rw [blocks]; omega)
  | succ m ih =>
    rw [List.range'_succ, epilogue]
    by_cases hle : g.rows ≤ mb * 16
    · rw [if_pos hle]
      exact hend (by rw [blocks]; omega)
    -- a block is staged between two barriers
    rw [if_neg hle]
    have hsub : κ.blocks g - mb = (κ.blocks g - (mb + 1)) + 1 := by
      rw [blocks]
      omega
    rw [hsub, List.range'_succ, List.map_cons, List.cons_append]
    refine Prog.Notes.note (Prog.Notes.stores (Prog.Notes.sync ?_))
    -- the rows are read back without a note
    refine Prog.Notes.each (g := fun _ => []) (fun rr _ k l hk => ?_) (Prog.Notes.sync ?_)
    · dsimp only
      split
      · exact Prog.Notes.loads fun _ => hk
      · exact hk
    refine ih (mb + 1) (by omega) fun hle => ?_
    rwa [Nat.sub_eq_zero_of_le hle]

/-- **A block** over its segments. -/
theorem block_notes (gs : List (FmSegment κ.toFmConfig V)) :
    (κ.block t gs).Notes (κ.planned t) (κ.notes t gs) := by
  induction gs with
  | nil => rfl
  | cons g gs ih =>
    rw [block, notes, List.flatMap_cons, segmentNotes, List.cons_append, List.append_assoc]
    refine Prog.Notes.note (mainloop_notes fun acc => ?_)
    rw [List.range_eq_range', List.range_eq_range']
    exact epilogue_notes ih 0 (Nat.zero_add _)

end FmKernel

end Dsv41Overlay.Experts
