import Dsv41Overlay.Lib.Cta
import Dsv41Overlay.Cooperative.Slots
import Mathlib.Algebra.Ring.Int.Defs

/-!
# The block that builds the run table

`build_runs` as the programs of the 512 threads of a block, for any number of rows, any `topk`
and any range of experts. Its shared arrays and the table `runs`, which holds the number of
runs, a gap, the places where runs start and the order of the slots, one behind the other, are
the addresses of the block (`RunAddr`).

What of `MoeCoopParams` the table depends on is in `MoeCoopParams`; a `Routing` has as many
slots as the arrays hold, and experts that an `int16_t` holds.
-/

namespace Dsv41Overlay.Cooperative

/-- `MAX_SLOTS`, the size of the shared arrays. -/
def maxSlots : ℕ := 256

/-- `MoeCoopParams`: what the run table depends on. -/
structure MoeCoopParams where
  bsz : ℕ
  topk : ℕ
  slotsMax : ℕ
  minExpert : ℤ
  maxExpert : ℤ
  aGlobal : Bool
  sel : ℕ → ℤ
  rw : ℕ → BitVec 16

namespace MoeCoopParams

/-- `slot_info`: whether the slot is active, and its local expert, `(int) e`. -/
def slotInfo (p : MoeCoopParams) (s : ℕ) : Bool × ℤ :=
  let e := p.sel s
  let ok := halfNonzero (p.rw s)
  if 0 ≤ p.minExpert then
    let ok := ok && (decide (p.minExpert ≤ e) && decide (e < p.maxExpert))
    (ok, if ok then Int.bmod (e - p.minExpert) (2 ^ 32) else 0)
  else (ok, if ok then Int.bmod e (2 ^ 32) else 0)

/-- The slots of the call. -/
def slots (p : MoeCoopParams) : ℕ := p.bsz * p.topk

/-- The slot takes part. -/
def active (p : MoeCoopParams) (s : ℕ) : Bool := (p.slotInfo s).1

/-- The local expert of a slot. -/
def expert (p : MoeCoopParams) (s : ℕ) : ℤ := (p.slotInfo s).2

/-- The active slots. -/
def activeSlots (p : MoeCoopParams) : List ℕ := (List.range p.slots).filter p.active

end MoeCoopParams

/-- A call whose slots fit the table and whose experts fit `sh_local`. -/
structure Routing extends MoeCoopParams where
  slots_le : toMoeCoopParams.slots ≤ slotsMax
  slotsMax_le : slotsMax ≤ maxSlots
  expert_lt : ∀ s < toMoeCoopParams.slots, toMoeCoopParams.active s = true →
    0 ≤ toMoeCoopParams.expert s ∧ toMoeCoopParams.expert s < 2 ^ 15

/-! ### The block -/

/-- The shared arrays of `build_runs`, and `p.runs`. -/
inductive RunAddr
  | shLocal (i : ℕ)
  | shOrder (i : ℕ)
  | shScan (w : ℕ)
  | shRes
  | runs (i : ℕ)
  deriving DecidableEq

/-- `threadIdx.x`. -/
abbrev Tid := Fin 512

/-- `threadIdx.x / 32`. -/
def Tid.warp (t : Tid) : ℕ := t.val / 32

/-- `threadIdx.x % 32`. -/
def Tid.lane (t : Tid) : ℕ := t.val % 32

/-- What a thread of the block does. -/
abbrev RunProg := Cta.Prog Tid RunAddr ℤ Empty

/-- The conversion to `int16_t`. -/
def int16 (v : ℤ) : ℤ := Int.bmod v (2 ^ 16)

/-- `(e << 8) | t`. -/
def runKey (e : ℤ) (t : ℕ) : ℕ := e.toNat <<< 8 ||| t

namespace MoeCoopParams

variable (p : MoeCoopParams)

/-- `run_start`. -/
def runStart (j : ℕ) : RunAddr := .runs (2 + j)

/-- `order`. -/
def order (i : ℕ) : RunAddr := .runs (2 + p.slotsMax + 1 + i)

/-- `sh_local[u]` for every slot `u`. -/
def locals : List RunAddr := (List.range p.slots).map .shLocal

/-- The rank of a slot: how many active ones have a smaller key. -/
def slotRank (es : List ℤ) (key : ℕ) : ℕ :=
  es.zipIdx.countP fun eu => decide (0 ≤ eu.1) && decide (runKey eu.1 eu.2 < key)

/-- How many active slots have an expert below `e`. -/
def firstOf (es : List ℤ) (e : ℤ) : ℕ := es.countP fun eu => decide (0 ≤ eu) && decide (eu < e)

/-- A thread with an active slot writes it at its rank. -/
def rankSlot (t : Tid) (k : RunProg) : RunProg :=
  let ranked := fun e =>
    if 0 ≤ e then
      .loads p.locals fun es =>
        let rank := slotRank es (runKey e t)
        .store (.shOrder rank) (int16 t) (.atomic .shRes (fun n => max n (rank + 1 : ℕ)) k)
    else k
  if t.val < p.slots then .load (.shLocal t) ranked else ranked (-1)

/-- `order[t] = sh_order[t]`. -/
def copyOrder (t : Tid) (k : RunProg) : RunProg :=
  .load (.shOrder t) fun s => .store (p.order t) s k

/-- `is_start`: a new expert, or a multiple of `ROWS` slots into the same one. -/
def startFlag (t : Tid) (nActive : ℤ) (k : ℤ → RunProg) : RunProg :=
  if (t.val : ℤ) < nActive then
    .load (.shOrder t) fun s => .load (.shLocal s.toNat) fun e =>
      .loads p.locals fun es =>
        if t.val = 0 then p.copyOrder t (k 1)
        else
          .load (.shOrder (t.val - 1)) fun s' => .load (.shLocal s'.toNat) fun e' =>
            let isStart := e' ≠ e ∨ ((t.val : ℤ) - firstOf es e).tmod 8 = 0
            p.copyOrder t (k (if isStart then 1 else 0))
  else k 0

/-- The lane that `__shfl_up_sync` reads, `o` lanes below. -/
def shflUp (t : Tid) (o : ℕ) : Tid :=
  if o ≤ Tid.lane t then ⟨t.val - o, Nat.lt_of_le_of_lt (Nat.sub_le _ _) t.isLt⟩ else t

/-- The warp scan. -/
def warpScan (t : Tid) : List ℕ → ℤ → (ℤ → RunProg) → RunProg
  | [], v, k => k v
  | o :: os, v, k => .shfl v (shflUp t o) fun n =>
    warpScan t os (if o ≤ Tid.lane t then v + n else v) k

/-- The run ids, and where the runs start. -/
def writeRuns (t : Tid) (nActive isStart v : ℤ) : RunProg :=
  .loads ((List.range 16).map .shScan) fun sums =>
    let base := (sums.take (Tid.warp t)).sum
    let totalRuns := sums.sum
    let runId := base + v - isStart
    .storeIf (isStart ≠ 0) (runStart runId.toNat) t <|
    .storeIf (t.val = 0) (runStart totalRuns.toNat) nActive <|
    .storeIf (t.val = 0) (.runs 0) totalRuns <|
    .done

/-- The thread's part from the second barrier on. -/
def cutRuns (t : Tid) : RunProg :=
  .load .shRes fun nActive =>
  p.startFlag t nActive fun isStart =>
  warpScan t ((List.range 5).map (2 ^ ·)) isStart fun v =>
  .storeIf (Tid.lane t = 31) (.shScan (Tid.warp t)) v <|
  .sync <|
  writeRuns t nActive isStart v

/-- `build_runs`, as thread `t` runs it. -/
def buildRuns (t : Tid) : RunProg :=
  .storeIf (t.val < p.slots) (.shLocal t) (if p.active t then int16 (p.expert t) else int16 (-1)) <|
  .storeIf (t.val = 0) .shRes 0 <|
  .sync <|
  p.rankSlot t <|
  .sync <|
  p.cutRuns t

/-- The runs of the block, from any contents of its arrays on. -/
def block (mem : RunAddr → ℤ) : System (Cta.State Tid RunAddr ℤ Empty) Unit :=
  Cta.runs Tid.warp mem p.buildRuns

/-- `read_run`: the slots of a run, `none` past the end. -/
def readRun (runs : ℕ → ℤ) (runIdx : ℕ) : Option (List ℕ) :=
  if p.aGlobal = false then
    if p.slots ≤ runIdx then none
    else if p.active runIdx then some [runIdx] else none
  else if runs 0 ≤ runIdx then none
  else
    let start := runs (2 + runIdx)
    let nrows := runs (2 + runIdx + 1) - start
    some ((List.range nrows.toNat).map fun i => (runs (2 + p.slotsMax + 1 + start.toNat + i)).toNat)

end MoeCoopParams

/-! ### The grids -/

/-- A block of kernel A: its run, its group of columns and its projection. -/
def itemA (groups item : ℕ) : ℕ × ℕ × ℕ :=
  let rem := item / 2
  (rem / groups, rem % groups, item % 2)

/-- A block of kernel B: its run and its group of columns. -/
def itemB (groups item : ℕ) : ℕ × ℕ := (item / groups, item % groups)

end Dsv41Overlay.Cooperative
