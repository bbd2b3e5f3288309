import Dsv41Overlay.Lib.Cta
import Dsv41Overlay.Lib.Launch

/-!
# A block of the grouped fat kernels

`fm_gateup_kernel` and `fm_down_kernel` as the programs of the 256 threads of a block. Shared
memory is addressed by words of 32 bits: a chunk of 16 bytes is four words, which an
asynchronous copy brings one by one, and `sh_c` lies over `sh_a` and `sh_b`. Values are the
words of the source tensors; what the tensor cores make of them is a list of products
(`FmMma`), from which `fm_stage_acc` takes its words.

The kernels share `fm_mainloop`, a pipeline of four stages over the K tiles of a segment, and
the shape of their epilogue. What the epilogue does with a row is left out; it touches registers
and global memory only.
-/

namespace Dsv41Overlay.Experts

open Cta

universe u

variable {V : Type u}

/-- The template arguments of `fm_mainloop`. -/
structure FmConfig where
  /-- Blocks of 16 rows. -/
  mb : ℕ
  /-- B streams. -/
  ns : ℕ
  /-- A buffers. -/
  na : ℕ
  bits : ℕ
  nbStride : ℕ
  na_pos : 0 < na
  ns_le : ns ≤ 2

/-- `fm_gateup_kernel`: 64 rows, two matrices over the same columns, a buffer for each. -/
def fmGateupConfig (bits : ℕ) : FmConfig := ⟨4, 2, 2, bits, 0, Nat.two_pos, Nat.le_refl 2⟩

/-- `fm_down_kernel`: 64 rows, two adjacent halves of one matrix, one buffer. -/
def fmDownConfig (bits : ℕ) : FmConfig := ⟨4, 2, 1, bits, 8, Nat.one_pos, Nat.le_refl 2⟩

namespace FmConfig

variable (c : FmConfig)

/-- `TILE_M`. -/
def tileM : ℕ := c.mb * 16

/-- `A_CHUNKS`: chunks of 16 bytes in a stage of A. -/
def aChunks : ℕ := c.na * c.tileM * 4

/-- `CH`: chunks of a 16x16 tile of B. -/
def ch : ℕ := 2 * c.bits

/-- `B_CHUNKS`. -/
def bChunks : ℕ := c.ns * 2 * 8 * c.ch

end FmConfig

/-- One product that a thread adds to an accumulator: the stream, the block of rows, and the
words of A and of B that the thread read for it. -/
structure FmMma (V : Type u) where
  s : ℕ
  mb : ℕ
  a : List V
  b : List V

/-- A block's arguments, and what its source tensors hold. -/
structure FmKernel (V : Type u) extends FmConfig where
  /-- `size_k / FM_TILE_K`. -/
  kTiles : ℕ
  tilesN : ℕ
  nBlock0 : ℕ
  /-- Buffer, row, chunk of the row, word. -/
  a : ℕ → ℕ → ℕ → ℕ → V
  /-- The words of its tile that `dq_dispatch` reads in a lane. -/
  dqWords : ℕ → List ℕ
  dqWords_lt : ∀ lane, ∀ w ∈ dqWords lane, w < 8 * bits
  /-- Element `i` of fragment `n` of the accumulators of a stream and a block of rows. -/
  frag : List (FmMma V) → ℕ → ℕ → ℕ → ℕ → V

/-- A segment: up to `TILE_M` rows of one expert. -/
structure FmSegment (c : FmConfig) (V : Type u) where
  row0 : ℕ
  rows : ℕ
  /-- Stream, tile, chunk of the tile, word. -/
  packed : ℕ → ℕ → ℕ → ℕ → V
  rows_pos : 1 ≤ rows
  rows_le : rows ≤ c.tileM

/-- Points of a thread's program. -/
inductive FmNote (c : FmConfig) (V : Type u)
  /-- The loop over the segments comes to this one. -/
  | start (g : FmSegment c V)
  /-- Iteration `kt` has read the B words of sub-step `j`. -/
  | fragsB (g : FmSegment c V) (kt j : ℕ) (fb : List (List V))
  /-- Iteration `kt` has read the A chunks of sub-step `j` and a block of rows. -/
  | fragsA (g : FmSegment c V) (kt j mb : ℕ) (fa : List (List V))
  /-- The end of `fm_mainloop`. -/
  | accumulated (g : FmSegment c V) (acc : List (FmMma V))
  /-- The epilogue is about to write a block of rows to `sh_c`. -/
  | stageAcc (g : FmSegment c V) (mb : ℕ)

/-- `threadIdx.x`. -/
abbrev FmTid := Fin 256

/-- `threadIdx.x >> 5`. -/
def FmTid.warp (t : FmTid) : ℕ := t.val / 32

/-- `threadIdx.x & 31`. -/
def FmTid.lane (t : FmTid) : ℕ := t.val % 32

/-- What a thread does. -/
abbrev FmProg (c : FmConfig) (V : Type u) := Prog FmTid ℕ V (FmNote c V)

/-- `fm_swz`. -/
def fmSwz (row chunk : ℕ) : ℕ := chunk ^^^ ((row >>> 1) &&& 3)

/-- `cp_async`: a chunk, word by word. -/
def cpAsync (c : FmConfig) (dst : ℕ) (src : ℕ → V) (k : FmProg c V) : FmProg c V :=
  .copies ((List.range 4).map fun w => (4 * dst + w, src w)) k

namespace FmConfig

variable (c : FmConfig)

/-- The chunk of `sh_a` with the given chunk of a row. -/
def aChunk (stage buf row chunk : ℕ) : ℕ :=
  stage * c.aChunks + buf * (c.tileM * 4) + row * 4 + fmSwz row chunk

/-- The first chunk of `sh_b` of a stage; four stages of A lie before it. -/
def bStage (stage : ℕ) : ℕ := 4 * c.aChunks + stage * c.bChunks

/-- The first chunk of a tile of B. -/
def bTile (stage s j nb : ℕ) : ℕ := c.bStage stage + (s * 2 + j) * (8 * c.ch) + nb * c.ch

end FmConfig

namespace FmKernel

variable (κ : FmKernel V) (g : FmSegment κ.toFmConfig V) (t : FmTid)

/-! ### The main loop -/

/-- The part of a thread in loading the A chunks of a stage. -/
def loadA (stage kt : ℕ) (k : FmProg κ.toFmConfig V) : FmProg κ.toFmConfig V :=
  let iters := (κ.aChunks + 256 - 1) / 256
  .each (fun i k =>
    let c := i * 256 + t.val
    if c < κ.aChunks then
      let buf := c / (κ.tileM * 4)
      let cc := c % (κ.tileM * 4)
      let row := cc >>> 2
      let chunk := cc &&& 3
      let srcRow := if row < g.rows then row else g.rows - 1
      cpAsync κ.toFmConfig (κ.aChunk stage buf row chunk)
        (κ.a buf (g.row0 + srcRow) (kt * 4 + chunk)) k
    else k) (List.range iters) k

/-- The part of a thread in loading the B chunks of a stage. -/
def loadB (stage kt : ℕ) (k : FmProg κ.toFmConfig V) : FmProg κ.toFmConfig V :=
  let iters := (κ.bChunks + 256 - 1) / 256
  .each (fun i k =>
    let c := i * 256 + t.val
    if c < κ.bChunks then
      let s := c / (2 * 8 * κ.ch)
      let r := c % (2 * 8 * κ.ch)
      let j := r / (8 * κ.ch)
      let nb := r / κ.ch % 8
      let q := r % κ.ch
      cpAsync κ.toFmConfig (κ.bTile stage s j nb + q)
        (g.packed s ((kt * 2 + j) * κ.tilesN + κ.nBlock0 + s * κ.nbStride + nb) q) k
    else k) (List.range iters) k

/-- `load_stage`. -/
def loadStage (stage kt : ℕ) (k : FmProg κ.toFmConfig V) : FmProg κ.toFmConfig V :=
  κ.loadA g t stage kt (κ.loadB g t stage kt k)

/-- `if (kt < k_tiles) load_stage(kt % FM_STAGES, kt); cp_async_fence();` -/
def loadTile (kt : ℕ) (k : FmProg κ.toFmConfig V) : FmProg κ.toFmConfig V :=
  if kt < κ.kTiles then κ.loadStage g t (kt % 4) kt (.commit k) else .commit k

/-- The row of a block of rows that a lane addresses. -/
def aRow (lane : ℕ) : ℕ := (lane &&& 7) + 8 * ((lane >>> 3) &&& 1)

/-- The words of B of a sub-step that a thread reads, for each stream. -/
def wordsB (stage j : ℕ) : List (List ℕ) :=
  (List.range κ.ns).map fun s => (κ.dqWords (FmTid.lane t)).map fun w =>
    4 * κ.bTile stage s j (FmTid.warp t) + w

/-- The words of A that `ldsm4` reads through a thread's address, for each buffer. -/
def wordsA (stage j mb : ℕ) : List (List ℕ) :=
  (List.range κ.na).map fun i => (List.range 4).map fun w =>
    4 * κ.aChunk stage i (mb * 16 + aRow (FmTid.lane t)) (j * 2 + (FmTid.lane t >>> 4)) + w

/-- The products of a block of rows. -/
def mmas (mb : ℕ) (fa fb : List (List V)) : List (FmMma V) :=
  (List.range κ.ns).map fun s => ⟨s, mb, fa.getD (if κ.na = 2 then s else 0) [], fb.getD s []⟩

/-- A sub-step of 16 columns of K. -/
def subStep (kt j : ℕ) (acc : List (FmMma V)) (k : List (FmMma V) → FmProg κ.toFmConfig V) :
    FmProg κ.toFmConfig V :=
  .gathers (κ.wordsB t (kt % 4) j) fun fb =>
  .note (.fragsB g kt j fb) <|
  .fold (fun mb acc k =>
    .gathers (κ.wordsA t (kt % 4) j mb) fun fa =>
    .note (.fragsA g kt j mb fa) <|
    k (acc ++ κ.mmas mb fa fb)) (List.range κ.mb) acc k

/-- An iteration of the loop over the K tiles. -/
def iteration (kt : ℕ) (acc : List (FmMma V)) (k : List (FmMma V) → FmProg κ.toFmConfig V) :
    FmProg κ.toFmConfig V :=
  .wait 2 <|
  .sync <|
  κ.loadTile g t (kt + 3) <|
  .fold (κ.subStep g t kt) (List.range 2) acc k

/-- `fm_mainloop`. -/
def mainloop (k : List (FmMma V) → FmProg κ.toFmConfig V) : FmProg κ.toFmConfig V :=
  .each (κ.loadTile g t) (List.range 3) <|
  .fold (κ.iteration g t) (List.range κ.kTiles) [] fun acc =>
  .wait 0 <|
  .sync <|
  .note (.accumulated g acc) <|
  k acc

/-! ### The epilogue -/

/-- What `fm_stage_acc` writes: the float of `sh_c`, and the element of the accumulators. -/
def stagedWords (acc : List (FmMma V)) (mb : ℕ) : List (ℕ × V) :=
  (List.range κ.ns).flatMap fun s => (List.range 2).flatMap fun h =>
    [(0, 0, 0), (1, 0, 1), (8, 1, 0), (9, 1, 1)].map fun e : ℕ × ℕ × ℕ =>
      (((FmTid.lane t >>> 2) + 8 * h) * (κ.ns * 128) + s * 128 +
          ((FmTid.lane t &&& 3) * 2 + FmTid.warp t * 16) + e.1,
        κ.frag acc s mb e.2.1 (2 * h + e.2.2))

/-- The floats of a row of `sh_c` that a thread reads. -/
def rowWords (r : ℕ) : List ℕ :=
  (List.range κ.ns).flatMap fun s => (List.range 4).map fun x =>
    r * (κ.ns * 128) + s * 128 + FmTid.lane t * 4 + x

/-- The blocks of 16 rows of a segment: each is written to `sh_c` and read back by rows. -/
def epilogue (acc : List (FmMma V)) :
    List ℕ → FmProg κ.toFmConfig V → FmProg κ.toFmConfig V
  | [], k => k
  | mb :: mbs, k =>
    if g.rows ≤ mb * 16 then k
    else
      .note (.stageAcc g mb) <|
      .stores (κ.stagedWords t acc mb) <|
      .sync <|
      .each (fun rr k =>
        let r := FmTid.warp t + rr * 8
        if r < g.rows - mb * 16 then .loads (κ.rowWords t r) fun _ => k else k) (List.range 2) <|
      .sync <|
      epilogue acc mbs k

/-! ### The kernels -/

/-- A block over its segments. -/
def block : List (FmSegment κ.toFmConfig V) → FmProg κ.toFmConfig V
  | [] => .done
  | g :: gs =>
    .note (.start g) <|
    κ.mainloop g t fun acc => κ.epilogue g t acc (List.range κ.mb) (block gs)

/-- `fm_gateup_kernel` and `fm_down_kernel`, thread `t` of block `y` of `grid`: the segments from
`y` on, in steps of the grid. -/
def kernel (seg : ℕ → FmSegment κ.toFmConfig V) (numSegs y grid : ℕ) : FmProg κ.toFmConfig V :=
  κ.block t ((stride y grid numSegs).map seg)

end FmKernel

end Dsv41Overlay.Experts
