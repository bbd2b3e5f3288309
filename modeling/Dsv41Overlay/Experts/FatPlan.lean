import Dsv41Overlay.Experts.FatStages
import Dsv41Overlay.Lib.CtaRules

/-!
# The plan of a block of the fat kernels

A segment takes one phase up to its first barrier, one for each K tile and two for each block of
rows in the epilogue. In phase `kt + 1` the stage `kt % 4` is frozen with K tile `kt`; the words
of all other stages belong to the threads that load them, which copy tile `kt + 3` into the
stage that was read in the phase before. In the epilogue the same memory is `sh_c`.
-/

namespace Dsv41Overlay.Experts

open Cta FmConfig

universe u

variable {V : Type u}

/-- The thread of that number. -/
def fmTid (n : ℕ) : FmTid := Fin.ofNat 256 n

theorem fmTid_eq_iff {n : ℕ} {t : FmTid} : fmTid n = t ↔ n % 256 = t.val := by
  rw [← Fin.val_inj, fmTid, Fin.val_ofNat]

namespace FmKernel

variable (κ : FmKernel V)

/-! ### Phases -/

/-- The blocks of 16 rows of a segment. -/
def blocks (g : FmSegment κ.toFmConfig V) : ℕ := (g.rows + 15) / 16

/-- The phases of a segment. -/
def phasesOf (g : FmSegment κ.toFmConfig V) : ℕ := κ.kTiles + 1 + 2 * κ.blocks g

/-- The segment of a phase, and how far the phase is into it. -/
def place : List (FmSegment κ.toFmConfig V) → ℕ → Option (FmSegment κ.toFmConfig V × ℕ)
  | [], _ => none
  | g :: gs, p => if p < κ.phasesOf g then some (g, p) else place gs (p - κ.phasesOf g)

variable {κ}

theorem place_cons_lt {g : FmSegment κ.toFmConfig V} {gs : List (FmSegment κ.toFmConfig V)} {o : ℕ}
    (ho : o < κ.phasesOf g) : κ.place (g :: gs) o = some (g, o) := if_pos ho

theorem place_cons_add (g : FmSegment κ.toFmConfig V) (gs : List (FmSegment κ.toFmConfig V))
    (q : ℕ) : κ.place (g :: gs) (κ.phasesOf g + q) = κ.place gs q := by
  rw [place, if_neg (by omega), Nat.add_sub_cancel_left]

/-! ### Products -/

variable (κ) (g : FmSegment κ.toFmConfig V) (t : FmTid)

/-- The words of B of K tile `kt` and sub-step `j` that a thread needs, for each stream. -/
def fragsB (kt j : ℕ) : List (List V) :=
  (List.range κ.ns).map fun s => (κ.dqWords (FmTid.lane t)).map fun w =>
    g.packed s ((kt * 2 + j) * κ.tilesN + κ.nBlock0 + s * κ.nbStride + FmTid.warp t) (w / 4) (w % 4)

/-- The chunks of A of K tile `kt`, sub-step `j` and a block of rows, for each buffer; rows behind
the last one of the segment are the last one. -/
def fragsA (kt j mb : ℕ) : List (List V) :=
  (List.range κ.na).map fun i => (List.range 4).map fun w =>
    κ.a i (κ.srcRow g (mb * 16 + aRow (FmTid.lane t))) (kt * 4 + (j * 2 + (FmTid.lane t >>> 4))) w

/-- The products that a thread adds up for K tile `kt`. -/
def products (kt : ℕ) : List (FmMma V) :=
  (List.range 2).flatMap fun j => (List.range κ.mb).flatMap fun mb =>
    κ.mmas mb (κ.fragsA g t kt j mb) (κ.fragsB g t kt j)

/-- The products of a segment: every K tile once. -/
def accumulated : List (FmMma V) := (List.range κ.kTiles).flatMap (κ.products g t)

/-! ### Values -/

/-- The words of `sh_c`. -/
def epiWords : ℕ := 16 * (κ.ns * 128)

/-- The thread that writes a word of `sh_c`. -/
def writer (x : ℕ) : FmTid :=
  fmTid (x % (κ.ns * 128) % 128 / 16 * 32 + x / (κ.ns * 128) % 8 * 4 +
    x % (κ.ns * 128) % 128 % 16 % 8 / 2)

/-- What it writes. -/
def staged (mb x : ℕ) : V :=
  κ.frag (κ.accumulated g (κ.writer x)) (x % (κ.ns * 128) / 128) mb
    (x % (κ.ns * 128) % 128 % 16 / 8)
    (2 * (x / (κ.ns * 128) / 8) + x % (κ.ns * 128) % 128 % 16 % 2)

/-- The word that a phase of a segment brings to a new value: a tile that lands, or a block of
rows of the epilogue. -/
def written (o x : ℕ) : Option V :=
  if o < κ.kTiles then
    (κ.locate x).bind fun sl => if sl.1 = o % 4 then some (κ.tileWord g o sl.2 (x % 4)) else none
  else if κ.kTiles < o ∧ (o - (κ.kTiles + 1)) % 2 = 0 ∧ x < κ.epiWords then
    some (κ.staged g ((o - (κ.kTiles + 1)) / 2) x)
  else none

/-- Whose a word is in a phase of a segment. -/
def permAt (o x : ℕ) : Perm FmTid :=
  if o ≤ κ.kTiles then
    match κ.locate x with
    | some (stage, sl) =>
      if 0 < o ∧ stage = (o - 1) % 4 then .frozen else .owned (fmTid sl.number)
    | none => .frozen
  else if (o - (κ.kTiles + 1)) % 2 = 0 ∧ x < κ.epiWords then .owned (κ.writer x)
  else .frozen

variable {κ g} in
theorem written_of_frozen {o x : ℕ} (h : κ.permAt o x = .frozen) : κ.written g o x = none := by
  rw [permAt] at h
  rw [written]
  -- before the last tile the copies of the next stages are in flight, after it the reduction writes
  by_cases ho : o < κ.kTiles
  · rw [if_pos (Nat.le_of_lt ho)] at h
    rw [if_pos ho]
    cases hloc : κ.locate x with
    | none => rfl
    | some sl =>
      rw [hloc] at h
      dsimp only at h
      split at h
      · -- the stage that is read is not the one that lands
        rw [Option.bind_some, if_neg (by omega)]
      · exact nomatch h
  · rw [if_neg ho]
    by_cases hlt : κ.kTiles < o
    · rw [if_neg (by omega)] at h
      split at h
      · exact nomatch h
      · rename_i hx
        rw [if_neg fun hand => hx hand.2]
    · rw [if_neg fun hand => hlt hand.1]

variable (segs : List (FmSegment κ.toFmConfig V)) (mem : ℕ → V)

/-- The memory with which a phase begins. -/
def valAt : ℕ → ℕ → V
  | 0, x => mem x
  | p + 1, x =>
    match κ.place segs p with
    | some (g, o) => (κ.written g o x).getD (valAt p x)
    | none => valAt p x

/-- What a thread may have in flight in a phase: tiles of the segment, and no copy in the
epilogue. -/
def flightAt (p : ℕ) (t : FmTid) (x : ℕ) (v : V) : Prop :=
  ∃ g o, κ.place segs p = some (g, o) ∧ o ≤ κ.kTiles ∧ ∃ q < κ.kTiles, ∃ sl,
    κ.locate x = some (q % 4, sl) ∧ sl.number % 256 = t.val ∧ v = κ.tileWord g q sl (x % 4)

/-- What is true of a thread at a note. -/
def notedAt (p : ℕ) (t : FmTid) (note : FmNote κ.toFmConfig V) (D : ℕ → Prop) : Prop :=
  match note with
  | .start g => κ.place segs p = some (g, 0) ∧ ∀ x, ¬ D x
  | .fragsB g kt j fb => κ.place segs p = some (g, kt + 1) ∧ fb = κ.fragsB g t kt j
  | .fragsA g kt j mb fa => κ.place segs p = some (g, kt + 1) ∧ fa = κ.fragsA g t kt j mb
  | .accumulated g acc => κ.place segs p = some (g, κ.kTiles + 1) ∧ acc = κ.accumulated g t
  | .stageAcc g mb => κ.place segs p = some (g, κ.kTiles + 1 + 2 * mb)

/-- The plan of a block. -/
def plan : Plan FmTid ℕ V (FmNote κ.toFmConfig V) ℕ where
  warp := FmTid.warp
  phases := (segs.map κ.phasesOf).sum
  perm p x := match κ.place segs p with
    | some (_, o) => κ.permAt o x
    | none => .frozen
  val := κ.valAt segs mem
  within _ _ _ := True
  deposit i _ := mem i
  exchanges _ _ := 0
  flight := κ.flightAt segs
  noted := κ.notedAt segs
  frozen_val p x h := by
    rw [valAt]
    split
    · rename_i g o hplace
      rw [hplace] at h
      rw [written_of_frozen h]
      rfl
    · rfl
  within_val _ _ _ _ := trivial

end FmKernel

end Dsv41Overlay.Experts
