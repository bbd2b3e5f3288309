import Dsv41Overlay.Lib.Completion
import Dsv41Overlay.Cooperative.Slots

/-!
# The three kernels

The shapes are fixed: 40 chunks of 128 input and output columns, 9 chunks of
intermediate columns, six slots a row. A block is a program of stores, counter resets
and arrivals; the warps of the rotation kernel, and those of a gate/up block without a
run, do not wait for each other and are programs of their own.

Kernel A (`aPrograms`) resets the counters of kernel B and arrives at its own, one for
each slot and intermediate chunk; kernel B (`bPrograms`) resets those of A and arrives
at one for each row and output chunk. Rows without an active slot get no arrival in
B: the rotation kernel writes them, or with a single row the idle blocks of A.

Split-k is off (`ksplit_a`, `ksplit_b` are 1), there is no bias and no shared expert,
and a tile never spans two chunks (`tile_cpb` is 1).
-/

namespace Dsv41Overlay.Cooperative

open Completion

variable {V : Type*}

/-- The buffers, by chunk or tile: `had_g` and `had_u`, `gu_g` and `gu_u`, `act_out`,
`d_out` and `out`. -/
inductive Cell
  | had (gate : Bool) (s c : ℕ)
  | gu (gate : Bool) (s group : ℕ)
  | act (s chunk : ℕ)
  | dOut (s group : ℕ)
  | out (row chunk : ℕ)
  deriving DecidableEq

/-- `ctr_a` and `ctr_b`. -/
inductive Counter
  | a (i : ℕ)
  | b (i : ℕ)
  deriving DecidableEq

/-- A block, or a warp that does not wait for the others. -/
abbrev Program (V : Type*) := List (Op Cell Counter V)

/-! ### Geometry -/

/-- `tile_cols`. -/
def tileCols (wide : Bool) : ℕ := if wide then 128 else 32

/-- `tile_gpc`: block groups per 128-chunk. -/
def tileGpc (wide : Bool) : ℕ := if 128 ≤ tileCols wide then 1 else 128 / tileCols wide

/-- `wa` of `select_t`. -/
def Call.wideA (C : Call V) : Bool := C.geometry != 0

/-- `wb` of `select_t`. -/
def Call.wideB (C : Call V) : Bool := C.geometry == 1

/-- `ng` of kernel A. -/
def Call.ngA (C : Call V) : ℕ := 1152 / tileCols C.wideA

/-- `ng` of kernel B. -/
def Call.ngB (C : Call V) : ℕ := 5120 / tileCols C.wideB

/-- `ga`. -/
def Call.gridA (C : Call V) : ℕ := C.rows * 6 * 2 * C.ngA

/-- `gb`. -/
def Call.gridB (C : Call V) : ℕ := C.rows * 6 * C.ngB

/-! ### Common parts -/

/-- The counters that the given threads of a block reset, by `gridDim.x * THREADS`. -/
def resets (ctr : ℕ → Counter) (len grid block : ℕ) (ts : List ℕ) : Program V :=
  ts.flatMap fun t =>
    (stride (block * threads + t) (grid * threads) len).map fun i => .zero (ctr i)

/-- The threads of a warp. -/
def lanes (warp : ℕ) : List ℕ := (List.range 32).map (warp * 32 + ·)

/-- `write_empty_row_chunk`, without a shared expert. -/
def writeEmptyRowChunk (C : Call V) (row chunk : ℕ) : Op Cell Counter V :=
  .put (.out row chunk) fun _ => C.arith.zero

/-- `load_sum` of a chunk: the sum over its single k-slice. -/
def loadSum (C : Call V) (tiles : List V) : V := C.arith.add C.arith.zero (C.arith.join tiles)

/-- `gemv_tile`: the rows of a run; the MMA has eight rows. -/
def gemvTile (C : Call V) (rows : List ℕ) (cell : ℕ → Cell) (f : ℕ → (Cell → V) → V) : Program V :=
  rows.zipIdx.map fun sr =>
    .put (cell sr.1) fun m => if sr.2 < 8 then f sr.1 m else C.arith.junk

/-! ### Rotation kernel -/

/-- A warp of `exl3_moe_coop_rot_kernel`. -/
def rotItem (C : Call V) (item : ℕ) : Program V :=
  let s := item / (40 * 2)
  let rem := item % (40 * 2)
  let c := rem / 2
  let isGate := rem % 2 == 0
  let si := slotInfo C s
  if si.active then
    [.put (.had isGate s c) fun _ => C.arith.rotate isGate si.localId c (C.x si.row c)]
  else if rem % 2 = 0 ∧ s % 6 = 0 ∧ tokenActiveSlots C si.row = 0 then
    (stride c 40 40).map (writeEmptyRowChunk C si.row)
  else []

/-- The launch of `exl3_moe_coop_rot_kernel`. -/
def rotPrograms (C : Call V) : List (Program V) :=
  let items := C.rows * 6 * 40 * 2
  (List.range ((items + (16 - 1)) / 16)).flatMap fun block => (List.range 16).map fun warp =>
    if items ≤ block * 16 + warp then [] else rotItem C (block * 16 + warp)

/-! ### Kernel A -/

/-- What a gate/up tile multiplies for a slot of its run: the rotated chunks in memory, or
with a single row those that the block rotates itself. -/
def aInput (C : Call V) (isGate : Bool) (rows : List ℕ) (s : ℕ) (m : Cell → V) : List V :=
  let first := slotInfo C (rows.headD 0)
  if 1 < C.rows then (List.range 40).map fun c => m (.had isGate s c)
  else (List.range 40).map fun c => C.arith.rotate isGate first.localId c (C.x first.row c)

/-- The gate or up tiles of a slot's chunk. -/
def chunkTiles (C : Call V) (gate : Bool) (s chunk : ℕ) (m : Cell → V) : List V :=
  let gpc := tileGpc C.wideA
  (List.range gpc).map fun j => m (.gu gate s (chunk * gpc + j))

/-- The arrival of a gate/up block for a slot; the last one runs the epilogue. -/
def aArrival (C : Call V) (group : ℕ) (rows : List ℕ) (s : ℕ) : Op Cell Counter V :=
  let gpc := tileGpc C.wideA
  let chunk := group / gpc
  .arrive (.a (s * 9 + chunk)) (gpc * 2) (.act s chunk) fun m =>
    C.arith.epilogue (slotInfo C (rows.headD 0)).localId chunk
      (loadSum C (chunkTiles C true s chunk m)) (loadSum C (chunkTiles C false s chunk m))

/-- The tile of a gate/up block, and its arrivals. -/
def aTile (C : Call V) (isGate : Bool) (group : ℕ) (rows : List ℕ) : Program V :=
  let e := (slotInfo C (rows.headD 0)).localId
  gemvTile C rows (.gu isGate · group)
      (fun s m => C.arith.gemv isGate e group (aInput C isGate rows s m)) ++
    rows.map (aArrival C group rows)

/-- What a warp of a gate/up block without a run writes. -/
def aIdle (C : Call V) (isGate : Bool) (runIdx group warp : ℕ) : Program V :=
  if ¬ 1 < C.rows ∧ runIdx < C.slots ∧ isGate = false ∧ runIdx % 6 = 0 ∧
      tokenActiveSlots C (runIdx / 6) = 0 then
    (stride (group + warp * C.ngA) (C.ngA * 16) 40).map (writeEmptyRowChunk C (runIdx / 6))
  else []

/-- A block of `exl3_moe_coop_a_kernel`. -/
def aBlock (C : Call V) (T : RunTable) (item : ℕ) : List (Program V) :=
  let isGate := item % 2 == 0
  let rem := item / 2
  let runIdx := rem / C.ngA
  let group := rem % C.ngA
  match readRun C T runIdx with
  | none => (List.range 16).map fun warp =>
      resets .b 320 C.gridA item (lanes warp) ++ aIdle C isGate runIdx group warp
  | some rows => [resets .b 320 C.gridA item (List.range threads) ++ aTile C isGate group rows]

/-- The launch of `exl3_moe_coop_a_kernel`. -/
def aPrograms (C : Call V) (T : RunTable) : List (Program V) :=
  (List.range C.gridA).flatMap (aBlock C T)

/-! ### Kernel B -/

/-- The reduction of a row's chunk: each warp adds up its slots, and the warps' parts are
added in warp order. -/
def reduceRow (C : Call V) (row chunk : ℕ) (m : Cell → V) : V :=
  let gpc := tileGpc C.wideB
  let part := fun warp => (stride warp 16 6).foldl (fun o k =>
    let sk := row * 6 + k
    let sj := slotInfo C sk
    if sj.active then
      C.arith.axpy sj.w (C.arith.term sj.localId chunk
        (loadSum C ((List.range gpc).map fun j => m (.dOut sk (chunk * gpc + j))))) o
    else o) C.arith.zero
  (List.range 16).foldl (fun o w => C.arith.add o (part w)) C.arith.zero

/-- The arrival of a down block for a slot; the last one reduces the row's chunk. -/
def bArrival (C : Call V) (group s : ℕ) : Op Cell Counter V :=
  let gpc := tileGpc C.wideB
  let chunk := group / gpc
  .arrive (.b (s / 6 * 40 + chunk)) (tokenActiveSlots C (s / 6) * gpc) (.out (s / 6) chunk)
    (reduceRow C (s / 6) chunk)

/-- The tile of a down block, and its arrivals. -/
def bTile (C : Call V) (group : ℕ) (rows : List ℕ) : Program V :=
  let e := (slotInfo C (rows.headD 0)).localId
  gemvTile C rows (.dOut · group) (fun s m =>
      C.arith.down e group ((List.range 9).map fun c => m (.act s c))) ++
    rows.map (bArrival C group)

/-- A block of `exl3_moe_coop_b_kernel`. -/
def bBlock (C : Call V) (T : RunTable) (item : ℕ) : List (Program V) :=
  let runIdx := item / C.ngB
  let group := item % C.ngB
  match readRun C T runIdx with
  | none => [resets .a 432 C.gridB item (List.range threads)]
  | some rows => [resets .a 432 C.gridB item (List.range threads) ++ bTile C group rows]

/-- The launch of `exl3_moe_coop_b_kernel`. -/
def bPrograms (C : Call V) (T : RunTable) : List (Program V) :=
  (List.range C.gridB).flatMap (bBlock C T)

end Dsv41Overlay.Cooperative
