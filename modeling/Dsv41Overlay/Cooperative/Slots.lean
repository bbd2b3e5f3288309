import Dsv41Overlay.Lib.Rank
import Mathlib.Data.Int.Init
import Mathlib.Data.List.Perm.Basic

/-!
# Slots and runs of a cooperative call

A call of `goal50_coop_launch` has up to eight rows of six routing slots each. A slot
is active when its weight is not zero and its id is an expert of this rank
(`slotInfo`). The blocks of the GEMV kernels work on *runs*: up to eight active slots
of one expert. With one row a run is a slot; with more, block `0` of the rotation
kernel builds a table of runs (`buildRuns`), which every later block reads
(`readRun`).

`runRows_perm` says that the runs hold every active slot once; `readRun_sound` that a
run is not empty, fits the eight rows of a tile and has one expert.
-/

namespace Dsv41Overlay.Cooperative

variable {V : Type*}

/-! ### Calls -/

/-- The floating point operations of the kernels on chunks and tiles, with the weights,
the bit width and the activation limit of a call. -/
structure Arith (V : Type*) where
  zero : V
  add : V → V → V
  /-- `o += w * v`. -/
  axpy : BitVec 16 → V → V → V
  /-- A chunk read as the tiles that lie in it. -/
  join : List V → V
  /-- `rotate_chunk` with the input signs of the gate or up projection. -/
  rotate : Bool → ℕ → ℕ → V → V
  /-- A row of a gate or up tile. -/
  gemv : Bool → ℕ → ℕ → List V → V
  /-- The chunk epilogue: rotations, activation, down-input rotation. -/
  epilogue : ℕ → ℕ → V → V → V
  /-- A row of a down tile. -/
  down : ℕ → ℕ → List V → V
  /-- The output rotation of a slot's chunk. -/
  term : ℕ → ℕ → V → V
  /-- What lies behind the rows of an MMA tile. -/
  junk : V

/-- The arguments of `goal50_coop_launch`: that no pointer is null and the geometry is
prepared, the scalars, and what the buffers hold. -/
structure Args (V : Type*) where
  pointers : Bool
  prepared : Bool
  bits : ℤ
  rows : ℤ
  experts : ℤ
  limit : BitVec 32
  geometry : ℤ
  guF32 : ℤ
  ids : ℕ → ℤ
  weights : ℕ → BitVec 16
  x : ℕ → ℕ → V
  arith : Arith V

/-- `std::isfinite` of a float. -/
def isFinite (f : BitVec 32) : Bool := f &&& 0x7f800000#32 != 0x7f800000#32

/-- `f < 0` for a finite float. -/
def isNegative (f : BitVec 32) : Bool := f.msb && f &&& 0x7fffffff#32 != 0#32

/-- `w != 0` for a half. -/
def halfNonzero (w : BitVec 16) : Bool := w &&& 0x7fff#16 != 0#16

/-- A call that passed the checks. -/
structure Call (V : Type*) where
  rows : ℕ
  experts : ℕ
  geometry : ℕ
  ids : ℕ → ℤ
  weights : ℕ → BitVec 16
  x : ℕ → ℕ → V
  arith : Arith V
  rows_pos : 1 ≤ rows
  rows_le : rows ≤ 8
  experts_le : experts ≤ 384
  geometry_le : geometry ≤ 2

/-- What `goal50_coop_launch` rejects. -/
def Args.Invalid (a : Args V) : Prop :=
  a.pointers = false ∨ a.bits < 2 ∨ a.bits > 4 ∨ a.rows < 1 ∨ a.rows > 8 ∨ a.experts < 1 ∨
    a.experts > 384 ∨ a.geometry < 0 ∨ a.geometry > 2 ∨ a.guF32 ≠ 0 ∨ isFinite a.limit = false ∨
    isNegative a.limit = true ∨ a.prepared = false

instance (a : Args V) : Decidable a.Invalid := inferInstanceAs (Decidable (_ ∨ _))

/-- The checks of `goal50_coop_launch`: `none` is `cudaErrorInvalidValue`. -/
def goal50CoopLaunch (a : Args V) : Option (Call V) :=
  if h : a.Invalid then none
  else some
    { rows := a.rows.toNat
      experts := a.experts.toNat
      geometry := a.geometry.toNat
      ids := a.ids
      weights := a.weights
      x := a.x
      arith := a.arith
      rows_pos := by simp only [Args.Invalid, not_or] at h; omega
      rows_le := by simp only [Args.Invalid, not_or] at h; omega
      experts_le := by simp only [Args.Invalid, not_or] at h; omega
      geometry_le := by simp only [Args.Invalid, not_or] at h; omega }

/-! ### Slots -/

/-- `SlotInfo`. -/
structure SlotInfo where
  row : ℕ
  localId : ℕ
  w : BitVec 16
  active : Bool
  deriving DecidableEq, Repr

/-- The slots of the call, `bsz * topk`. -/
def Call.slots (C : Call V) : ℕ := C.rows * 6

/-- `slot_info`, with `min_expert` zero. -/
def slotInfo (C : Call V) (s : ℕ) : SlotInfo :=
  let e := C.ids s
  let w := C.weights s
  let ok := halfNonzero w && (decide (0 ≤ e) && decide (e < C.experts))
  ⟨s / 6, if ok then e.toNat else 0, w, ok⟩

/-- The slot takes part. -/
def Call.isActive (C : Call V) (s : ℕ) : Bool := (slotInfo C s).active

/-- `token_active_slots`. -/
def tokenActiveSlots (C : Call V) (row : ℕ) : ℕ :=
  (List.range 6).countP fun k => C.isActive (row * 6 + k)

/-- The active slots, in order. -/
def Call.activeSlots (C : Call V) : List ℕ := (List.range C.slots).filter C.isActive

theorem slots_le (C : Call V) : C.slots ≤ 48 := by
  have := C.rows_le
  unfold Call.slots
  omega

theorem mem_activeSlots {C : Call V} {s : ℕ} :
    s ∈ C.activeSlots ↔ s < C.slots ∧ C.isActive s = true := by
  rw [Call.activeSlots, List.mem_filter, List.mem_range]

theorem nodup_activeSlots (C : Call V) : C.activeSlots.Nodup := List.nodup_range.filter _

theorem length_activeSlots_le (C : Call V) : C.activeSlots.length ≤ C.slots :=
  Nat.le_trans (List.length_filter_le ..) (Nat.le_of_eq List.length_range)

/-- An active slot has an expert of this rank. -/
theorem localId_lt {C : Call V} {s : ℕ} (h : C.isActive s = true) :
    (slotInfo C s).localId < C.experts := by
  simp only [Call.isActive, slotInfo, Bool.and_eq_true, decide_eq_true_eq] at h
  obtain ⟨hw, he, hlt⟩ := h
  simp only [slotInfo, hw, he, hlt, decide_true, Bool.and_true, if_true]
  omega

/-! ### The run table -/

/-- `THREADS`, the threads of a block. -/
@[irreducible] def threads : ℕ := 512

theorem threads_eq : threads = 512 := by rw [threads]

/-- The run table in device memory. -/
structure RunTable where
  nRuns : ℕ
  runStart : ℕ → ℕ
  order : ℕ → ℕ

/-- `sh_local`: the local expert of a slot, an `int16_t`, or `-1`. -/
def shLocal (C : Call V) (t : ℕ) : ℤ :=
  if (slotInfo C t).active then Int.bmod (slotInfo C t).localId (2 ^ 16) else -1

/-- `(my_e << 8) | t`. -/
def slotKey (C : Call V) (t : ℕ) : ℕ := (shLocal C t).toNat <<< 8 ||| t

/-- The rank of a slot by `(expert, slot)`. -/
def slotRank (C : Call V) (t : ℕ) : ℕ :=
  (List.range C.slots).countP fun u =>
    decide (0 ≤ shLocal C u) && decide (slotKey C u < slotKey C t)

/-- The threads with an active slot. -/
def ranked (C : Call V) : List ℕ := (List.range C.slots).filter fun t => decide (0 ≤ shLocal C t)

/-- `sh_order`, over what shared memory held before. -/
def shOrder (C : Call V) (buf : ℕ → ℕ) : ℕ → ℕ :=
  scatterWrite buf ((ranked C).map fun t => (slotRank C t, t))

/-- `sh_res[0]` after every ranked thread did its `atomicMax`. -/
def nActive (C : Call V) : ℕ := (ranked C).foldl (fun n t => max n (slotRank C t + 1)) 0

/-- `is_start`: a new expert, or a multiple of eight slots into the same one. -/
def isStart (C : Call V) (buf : ℕ → ℕ) (t : ℕ) : Bool :=
  decide (t < nActive C) &&
    let e := shLocal C (shOrder C buf t)
    let first := (List.range C.slots).countP fun u =>
      decide (0 ≤ shLocal C u) && decide (shLocal C u < e)
    decide (t = 0) || (shLocal C (shOrder C buf (t - 1)) != e ||
      decide (((t : ℤ) - first).tmod 8 = 0))

/-- The flag of lane `lane` of warp `warp`. -/
def laneFlag (C : Call V) (buf : ℕ → ℕ) (warp lane : ℕ) : ℕ :=
  (isStart C buf (warp * 32 + lane)).toNat

/-- `v` of a lane after the warp scan. -/
def warpScan (C : Call V) (buf : ℕ → ℕ) (warp : ℕ) : ℕ → ℕ :=
  ((List.range 5).map (2 ^ ·)).foldl scanStep (laneFlag C buf warp)

/-- The sum of `sh_scan` below warp `n`. -/
def scanBase (C : Call V) (buf : ℕ → ℕ) (n : ℕ) : ℕ :=
  prefixSum (fun w => warpScan C buf w 31) n

/-- `run_id`. -/
def runId (C : Call V) (buf : ℕ → ℕ) (t : ℕ) : ℕ :=
  scanBase C buf (t / 32) + warpScan C buf (t / 32) (t % 32) - (isStart C buf t).toNat

/-- The threads that start a run. -/
def starts (C : Call V) (buf : ℕ → ℕ) : List ℕ := (List.range threads).filter (isStart C buf)

/-- `build_runs`: the table after the block, over what it and shared memory held. -/
def buildRuns (C : Call V) (buf : ℕ → ℕ) (old : RunTable) : RunTable :=
  let total := scanBase C buf 16
  { nRuns := total
    runStart := scatterWrite old.runStart
      (((starts C buf).map fun t => (runId C buf t, t)) ++ [(total, nActive C)])
    order := scatterWrite old.order
      ((List.range (nActive C)).map fun t => (t, shOrder C buf t)) }

/-- `read_run`: the slots of a run, `none` past the end. -/
def readRun (C : Call V) (T : RunTable) (runIdx : ℕ) : Option (List ℕ) :=
  if C.rows ≤ 1 then
    if C.slots ≤ runIdx then none
    else if C.isActive runIdx then some [runIdx] else none
  else if T.nRuns ≤ runIdx then none
  else
    some ((List.range (T.runStart (runIdx + 1) - T.runStart runIdx)).map fun i =>
      T.order (T.runStart runIdx + i))

end Dsv41Overlay.Cooperative
