import Dsv41Overlay.Engram.Shard
import Dsv41Overlay.RowStore.Calls
import Mathlib.Data.List.Range

/-!
# Packing a shard

`pack_layer` copies the owned rows of a table into a shard: it writes the header and
one block for each chunk of rows into a partial file, syncs it and renames it over
the target. Files are unbuffered, so every read and write is one system call with an
outcome of its own, and any call may raise.

A copy that goes through has written `packedShard` whatever the chunk size, as long as
no write was cut short (`copyRows_ok`): the blocks of the chunks are consecutive pieces
of the records (`records_append`), and reads that are cut short are noticed. A run ends
with the target as it was or behind the rename (`packRange_cases`), which makes packing
atomic (`packLayer_atomic`). A shard that was written without a disturbance is accepted
for its own range only, and its records read back as the rows of the table
(`pack_attach_fetch`).

Two things are not looked at (`packLayer_not_atomic`). A target that already has the
size of the shard is taken for the shard, by design. And the counts that the writes
return are ignored, so that a write cut short goes unnoticed.
-/

namespace Dsv41Overlay
namespace RowStore

/-! ### Calls and their outcomes -/

/-- What ends `pack_layer` early: a `SystemExit` with its text, or an exception of a
call. -/
inductive Fault
  | exit (message : String)
  | raised
  deriving DecidableEq, Repr

/-- The outcomes of the calls for one chunk. A read or a write is `none` when it raises
and else how many bytes it is willing to take or give; any other call is `false` when
it raises. -/
structure ChunkOutcome where
  seekWeights : Bool
  readWeights : Option ℕ
  seekScales : Bool
  readScales : Option ℕ
  /-- The numpy block. -/
  assembled : Bool
  write : Option ℕ
  /-- The progress line. -/
  reported : Bool
deriving DecidableEq, Repr

/-- The outcomes of the calls of `pack_layer`, in the order of the source. -/
structure Outcomes where
  /-- `target.exists()` and `target.stat()`. -/
  inspected : Bool
  /-- The line for a target that is already complete. -/
  reportedComplete : Bool
  openedSource : Bool
  openedPartial : Bool
  writeHeader : Option ℕ
  /-- The chunks, by their number. -/
  chunk : ℕ → ChunkOutcome
  /-- `flush`, `fsync` and the closing of both files. -/
  synced : Bool
  renamed : Bool
  /-- The last line. -/
  reported : Bool

/-- The two entries of the output directory that `pack_layer` names. -/
structure OutDir where
  target : Option (List UInt8)
  partialFile : Option (List UInt8)
deriving DecidableEq, Repr

/-- A step of the copy: it goes on with the bytes of the partial file, or leaves a
fault and the bytes written so far. -/
abbrev Copy := Except (Fault × List UInt8) (List UInt8)

/-- A call that gives nothing. -/
def callOk (ok : Bool) (dst : List UInt8) : Copy :=
  if ok then .ok dst else .error (.raised, dst)

/-- `seek` to `offset`, then `read(n)`: the bytes read. -/
def rawRead (t : Table) (seek : Bool) (offset n : ℕ) (outcome : Option ℕ) (dst : List UInt8) :
    Copy :=
  match seek, pread t.file offset n outcome with
  | true, some bytes => .ok bytes
  | _, _ => .error (.raised, dst)

/-- `dst.write(data)`. The count that it returns is ignored. -/
def rawWrite (dst data : List UInt8) : Option ℕ → Copy
  | none => .error (.raised, dst)
  | some got => .ok (dst ++ data.take got)

/-- The text of the exit after a short read. -/
def shortRead (start : ℕ) : String := "short read at row " ++ toString start

/-! ### The copy -/

/-- The records of `n` rows from their weights and their scales. -/
def block (n : ℕ) (weights scales : List UInt8) : List UInt8 :=
  (List.range n).flatMap fun i =>
    slice weights (i * kWeightBytes) kWeightBytes ++ slice scales (i * kScaleBytes) kScaleBytes

/-- The rows of the chunk from `start` on: `stop - start`. -/
def chunkLen (hi chunkRows start : ℕ) : ℕ := min (start + chunkRows) hi - start

/-- One turn of the loop. -/
def packChunk (t : Table) (hi chunkRows start : ℕ) (o : ChunkOutcome) (dst : List UInt8) :
    Copy := do
  let n := chunkLen hi chunkRows start
  let weights ← rawRead t o.seekWeights (t.weightOffset + start * kWeightBytes)
    (n * kWeightBytes) o.readWeights dst
  let scales ← rawRead t o.seekScales (t.scaleOffset + start * kScaleBytes)
    (n * kScaleBytes) o.readScales dst
  if weights.length ≠ n * kWeightBytes ∨ scales.length ≠ n * kScaleBytes then
    .error (.exit (shortRead start), dst)
  else
    let dst ← callOk o.assembled dst
    let dst ← rawWrite dst (block n weights scales) o.write
    callOk o.reported dst

/-- `range(lo, hi, step)` for `lo ≤ hi`: empty for a negative step. -/
def rangeStep (lo hi : ℕ) (step : ℤ) : List ℕ :=
  if 0 < step then
    (List.range ((hi - lo + step.toNat - 1) / step.toNat)).map fun k => lo + k * step.toNat
  else []

/-- The loop over the chunks, from chunk number `k` on. -/
def packLoop (t : Table) (hi chunkRows : ℕ) (o : ℕ → ChunkOutcome) :
    List ℕ → ℕ → List UInt8 → Copy
  | [], _, dst => .ok dst
  | start :: starts, k, dst => do
    let dst ← packChunk t hi chunkRows start (o k) dst
    packLoop t hi chunkRows o starts (k + 1) dst

/-- `struct.pack_into('<6Q', …)` takes 64-bit words. -/
def wordsFit (layerId lo hi rows : ℕ) : Bool :=
  layerId < 2 ^ 64 && lo < 2 ^ 64 && hi < 2 ^ 64 && rows < 2 ^ 64

/-- The body of the `with`, from the opened partial file to the sync. -/
def copyRows (t : Table) (layerId lo hi : ℕ) (chunkRows : ℤ) (o : Outcomes) : Copy := do
  let dst ← rawWrite [] (packedHeader layerId lo hi t.rows) o.writeHeader
  -- `range` raises for the step zero
  let dst ← callOk (chunkRows ≠ 0) dst
  let dst ← packLoop t hi chunkRows.toNat o.chunk (rangeStep lo hi chunkRows) 0 dst
  callOk o.synced dst

/-- The size of the shard of `count` rows. -/
def expectedSize (count : ℕ) : ℕ := kPackedHeader + count * kRowBytes

/-- The text of the exit for a range outside the table. -/
def outsideTable (layerId : ℕ) (lo hi : ℤ) (rows : ℕ) : String :=
  "layer " ++ toString layerId ++ " shard [" ++ toString lo ++ "," ++ toString hi ++
    ") outside table rows=" ++ toString rows

/-- `pack_layer` behind the look-ups of the table and of the owned range. The fault is
`none` when it returns. -/
def packRange (t : Table) (layerId : ℕ) (lo hi : ℤ) (chunkRows : ℤ) (o : Outcomes) (d : OutDir) :
    Option Fault × OutDir :=
  if ¬ (0 ≤ lo ∧ lo < hi ∧ hi ≤ t.rows) then
    (some (.exit (outsideTable layerId lo hi t.rows)), d)
  else if !o.inspected then (some .raised, d)
  else if d.target.map List.length = some (expectedSize (hi - lo).toNat) then
    (if o.reportedComplete then none else some .raised, d)
  else if !wordsFit layerId lo.toNat hi.toNat t.rows || !o.openedSource || !o.openedPartial then
    (some .raised, d)
  else
    match copyRows t layerId lo.toNat hi.toNat chunkRows o with
    | .error (fault, dst) => (some fault, { d with partialFile := some dst })
    | .ok dst =>
      if !o.renamed then (some .raised, { d with partialFile := some dst })
      else
        (if o.reported then none else some .raised,
          { target := some dst, partialFile := none })

/-- The parts of a checkpoint that `pack_layer` reads; `none` where reading raises. -/
structure Checkpoint where
  /-- `tensor_span`. -/
  tensorSpan : ℕ → Option Table
  /-- The head sizes of a layer, `layer_head_sizes_from_config`. -/
  headSizes : ℕ → Option (List ℤ)

/-- `owned_row_range`. The number of ranks divides the heads, so it is not zero. -/
def Checkpoint.ownedRowRange (cp : Checkpoint) (layerId rank tp : ℕ) : Option (ℤ × ℤ) :=
  if tp = 0 then none
  else (cp.headSizes layerId).map fun sizes => Engram.ownedRowRange sizes rank tp

/-- `pack_layer`. -/
def packLayer (cp : Checkpoint) (layerId rank tp : ℕ) (chunkRows : ℤ) (o : Outcomes)
    (d : OutDir) : Option Fault × OutDir :=
  match cp.tensorSpan layerId, cp.ownedRowRange layerId rank tp with
  | some t, some (lo, hi) => packRange t layerId lo hi chunkRows o d
  | _, _ => (some .raised, d)

/-! ### Chunks -/

/-- The records of `n` rows from `start` on. -/
def records (t : Table) (start n : ℕ) : List UInt8 := (List.range' start n).flatMap t.row

theorem packedShard_eq (t : Table) (layer lo hi : ℕ) :
    packedShard t layer lo hi = packedHeader layer lo hi t.rows ++ records t lo (hi - lo) := rfl

/-- Records of consecutive rows. -/
theorem records_append (t : Table) (start m n : ℕ) :
    records t start m ++ records t (start + m) n = records t start (m + n) := by
  unfold records
  rw [← List.flatMap_append, List.range'_append_1]

/-- The block of a chunk holds its records. -/
theorem block_eq (t : Table) (start n : ℕ) :
    block n (slice t.file (t.weightOffset + start * kWeightBytes) (n * kWeightBytes))
      (slice t.file (t.scaleOffset + start * kScaleBytes) (n * kScaleBytes)) =
      records t start n := by
  unfold block records
  rw [List.range'_eq_map_range, List.flatMap_map]
  apply List.flatMap_congr
  intro i hi
  have hlt := List.mem_range.mp hi
  -- the window of row `start + i` in the buffers is its window in the file
  rw [slice_slice _ _ (by simp only [kWeightBytes]; omega),
    slice_slice _ _ (by simp only [kScaleBytes]; omega), Table.row, Table.weight, Table.scale]
  rw [Nat.add_mul, Nat.add_mul, ← Nat.add_assoc, ← Nat.add_assoc]

theorem length_block {n : ℕ} {weights scales : List UInt8}
    (hw : weights.length = n * kWeightBytes) (hs : scales.length = n * kScaleBytes) :
    (block n weights scales).length = n * kRowBytes := by
  unfold block
  rw [length_flatMap_of_size, List.length_range]
  intro i hi
  have hlt := List.mem_range.mp hi
  rw [List.length_append, length_slice (by simp only [kWeightBytes] at hw ⊢; omega),
    length_slice (by simp only [kScaleBytes] at hs ⊢; omega)]
  rfl

/-- A range is its first chunk and the range behind it. -/
theorem rangeStep_cons {lo hi : ℕ} {step : ℤ} (hstep : 0 < step) (h : lo < hi) :
    rangeStep lo hi step = lo :: rangeStep (lo + step.toNat) hi step := by
  obtain ⟨s, rfl⟩ := Int.eq_ofNat_of_zero_le hstep.le
  have hs : 0 < s := Int.natCast_pos.mp hstep
  -- the range has one start more than the range behind its first
  have hcount : (hi - lo + s - 1) / s = (hi - (lo + s) + s - 1) / s + 1 := by
    rcases Nat.lt_or_ge (hi - lo) s with hlt | hge
    -- less than one step is left
    · have h1 : (hi - lo + s - 1) / s = 1 :=
        Nat.div_eq_of_lt_le (by omega) (by omega)
      have h2 : (hi - (lo + s) + s - 1) / s = 0 := Nat.div_eq_of_lt (by omega)
      rw [h1, h2]
    · have heq : hi - lo + s - 1 = (hi - (lo + s) + s - 1) + s := by omega
      rw [heq, Nat.add_div_right _ hs]
  unfold rangeStep
  -- the starts behind the first are shifted by one step
  rw [if_pos hstep, if_pos hstep, Int.toNat_natCast, hcount, List.range_succ_eq_map,
    List.map_cons, List.map_map, Nat.zero_mul, Nat.add_zero]
  congr 1
  apply List.map_congr_left
  intro k _
  show lo + (k + 1) * s = lo + s + k * s
  rw [Nat.succ_mul]
  omega

theorem rangeStep_nil {lo hi : ℕ} {step : ℤ} (h : hi ≤ lo) : rangeStep lo hi step = [] := by
  unfold rangeStep
  split
  · next hstep =>
    have hs : 0 < step.toNat := by omega
    rw [Nat.sub_eq_zero_of_le h, Nat.zero_add, Nat.div_eq_of_lt (by omega)]
    rfl
  · rfl

/-- **The chunks of a range, put together**, are its records, whatever their size. -/
theorem flatMap_rangeStep (t : Table) {lo hi : ℕ} {step : ℤ} (hstep : 0 < step) :
    ((rangeStep lo hi step).flatMap fun start => records t start (chunkLen hi step.toNat start)) =
      records t lo (hi - lo) := by
  have hs : 0 < step.toNat := by omega
  induction hn : hi - lo using Nat.strong_induction_on generalizing lo with
  | _ n ih =>
    subst hn
    -- the first chunk, and the chunks from the next start on
    rcases Nat.lt_or_ge lo hi with h | h
    · rw [rangeStep_cons hstep h, List.flatMap_cons]
      rcases Nat.le_total (lo + step.toNat) hi with hle | hle
      · rw [ih (hi - (lo + step.toNat)) (by omega) rfl]
        have hlen : chunkLen hi step.toNat lo = step.toNat := by
          unfold chunkLen
          omega
        rw [hlen, records_append, show step.toNat + (hi - (lo + step.toNat)) = hi - lo by omega]
      -- the last chunk ends with the range
      · rw [rangeStep_nil hle, List.flatMap_nil, List.append_nil]
        have hlen : chunkLen hi step.toNat lo = hi - lo := by
          unfold chunkLen
          omega
        rw [hlen]
    · rw [rangeStep_nil h, List.flatMap_nil, Nat.sub_eq_zero_of_le h]
      rfl

/-! ### What a copy that goes through has written -/

/-- A step behind another. -/
theorem copy_bind_ok {x : Copy} {f : List UInt8 → Copy} {b : List UInt8}
    (h : (x >>= f) = .ok b) : ∃ a, x = .ok a ∧ f a = .ok b := by
  cases x with
  | error e => cases h
  | ok a => exact ⟨a, rfl, h⟩

theorem callOk_ok {ok : Bool} {dst dst' : List UInt8} (h : callOk ok dst = .ok dst') :
    ok = true ∧ dst' = dst := by
  unfold callOk at h
  split at h
  · next hok =>
    cases h
    exact ⟨hok, rfl⟩
  · cases h

theorem rawWrite_ok {dst data dst' : List UInt8} {o : Option ℕ}
    (h : rawWrite dst data o = .ok dst') : ∃ got, o = some got ∧ dst' = dst ++ data.take got := by
  cases o with
  | none => cases h
  | some got =>
    cases h
    exact ⟨got, rfl, rfl⟩

/-- A read that is not cut short gives the bytes of the file. -/
theorem rawRead_ok {t : Table} {seek : Bool} {offset n : ℕ} {o : Option ℕ}
    {dst bytes : List UInt8} (h : rawRead t seek offset n o dst = .ok bytes)
    (hlen : bytes.length = n) : bytes = slice t.file offset n := by
  unfold rawRead at h
  split at h
  · next hread =>
    cases h
    obtain ⟨m, hm, hmlen, -⟩ := length_pread hread
    rw [hlen] at hmlen
    rw [hm, hmlen]
  · cases h

/-- The write of `n` bytes is not cut short. -/
def Full (o : Option ℕ) (n : ℕ) : Prop := ∀ got, o = some got → n ≤ got

/-- A chunk that goes through has written its records. -/
theorem packChunk_ok {t : Table} {hi chunkRows start : ℕ} {o : ChunkOutcome}
    {dst dst' : List UInt8} (h : packChunk t hi chunkRows start o dst = .ok dst')
    (hfull : Full o.write (chunkLen hi chunkRows start * kRowBytes)) :
    dst' = dst ++ records t start (chunkLen hi chunkRows start) := by
  -- both reads fill the chunk, or the check raises
  obtain ⟨weights, hweights, hrest⟩ := copy_bind_ok h
  obtain ⟨scales, hscales, hrest⟩ := copy_bind_ok hrest
  split at hrest
  · cases hrest
  · next hlen =>
    rw [not_or, not_not, not_not] at hlen
    obtain ⟨dst₁, hassembled, hrest⟩ := copy_bind_ok hrest
    obtain ⟨dst₂, hwrite, hrest⟩ := copy_bind_ok hrest
    obtain ⟨got, hgot, hdst₂⟩ := rawWrite_ok hwrite
    have hle := hfull got hgot
    -- every write is full, so the whole block has gone out
    rw [(callOk_ok hrest).2, hdst₂, (callOk_ok hassembled).2,
      List.take_of_length_le (by rwa [length_block hlen.1 hlen.2]), rawRead_ok hweights hlen.1,
      rawRead_ok hscales hlen.2, block_eq]

/-- The loop has written the records of its chunks in turn. -/
theorem packLoop_ok {t : Table} {hi chunkRows : ℕ} {o : ℕ → ChunkOutcome} {starts : List ℕ}
    {k : ℕ} {dst dst' : List UInt8}
    (h : packLoop t hi chunkRows o starts k dst = .ok dst')
    (hfull : ∀ (j start : ℕ), starts[j]? = some start →
      Full (o (k + j)).write (chunkLen hi chunkRows start * kRowBytes)) :
    dst' = dst ++ starts.flatMap fun start => records t start (chunkLen hi chunkRows start) := by
  induction starts generalizing k dst with
  | nil =>
    cases h
    exact (List.append_nil _).symm
  | cons start starts ih =>
    -- the chunk that is copied, then the ones behind it
    obtain ⟨mid, hchunk, h⟩ := copy_bind_ok h
    have hmid := packChunk_ok hchunk (hfull 0 start rfl)
    have hrest := ih h fun j start' hj => by
      have := hfull (j + 1) start' hj
      rwa [← Nat.add_assoc, Nat.add_right_comm] at this
    rw [hrest, hmid, List.flatMap_cons, List.append_assoc]

/-- The starts of a range. -/
theorem getElem?_rangeStep {lo hi j start : ℕ} {step : ℤ}
    (h : (rangeStep lo hi step)[j]? = some start) : start = lo + j * step.toNat := by
  unfold rangeStep at h
  split at h
  · rw [List.getElem?_map] at h
    obtain ⟨k, hk, rfl⟩ := Option.map_eq_some_iff.mp h
    obtain ⟨hlt, rfl⟩ := List.getElem?_eq_some_iff.mp hk
    rw [List.getElem_range]
  · cases h

/-- No write is cut short: each write that returns has taken its bytes. -/
structure Outcomes.WritesFull (o : Outcomes) (lo hi : ℕ) (chunkRows : ℤ) : Prop where
  /-- The header. -/
  header : Full o.writeHeader kPackedHeader
  /-- The block of each chunk. -/
  chunk : ∀ k, Full (o.chunk k).write
    (chunkLen hi chunkRows.toNat (lo + k * chunkRows.toNat) * kRowBytes)

/-- **A copy that goes through has written the shard**, if no write was cut short. -/
theorem copyRows_ok {t : Table} {layerId lo hi : ℕ} {chunkRows : ℤ} {o : Outcomes}
    {dst : List UInt8} (h : copyRows t layerId lo hi chunkRows o = .ok dst)
    (hchunk : 0 ≤ chunkRows) (hfull : o.WritesFull lo hi chunkRows) :
    dst = packedShard t layerId lo hi := by
  obtain ⟨_, hheader, h⟩ := copy_bind_ok h
  obtain ⟨got, hgot, rfl⟩ := rawWrite_ok hheader
  obtain ⟨_, hrange, h⟩ := copy_bind_ok h
  obtain ⟨hne, rfl⟩ := callOk_ok hrange
  -- a chunk size of zero has raised
  have hpos : 0 < chunkRows := lt_of_le_of_ne hchunk (Ne.symm (of_decide_eq_true hne))
  obtain ⟨_, hloop, h⟩ := copy_bind_ok h
  obtain ⟨-, rfl⟩ := callOk_ok h
  -- chunk `j` starts at the `j`-th place of the range
  have hrecords := packLoop_ok hloop fun j start hj => by
    rw [getElem?_rangeStep hj, Nat.zero_add]
    exact hfull.chunk j
  rw [hrecords, flatMap_rangeStep t hpos, packedShard_eq, List.nil_append,
    List.take_of_length_le]
  rw [length_packedHeader]
  exact hfull.header got hgot

/-! ### A copy that is not disturbed -/

/-- A read or a write that does not raise and is complete, for `n` bytes. -/
def Fills (o : Option ℕ) (n : ℕ) : Prop := ∃ got, o = some got ∧ n ≤ got

theorem Fills.full {o : Option ℕ} {n : ℕ} (h : Fills o n) : Full o n := by
  obtain ⟨got, rfl, hle⟩ := h
  intro got' heq
  cases heq
  exact hle

/-- No call for a chunk of `n` rows raises, and reads and writes are complete. -/
structure ChunkOutcome.Complete (o : ChunkOutcome) (n : ℕ) : Prop where
  seekWeights : o.seekWeights = true
  readWeights : Fills o.readWeights (n * kWeightBytes)
  seekScales : o.seekScales = true
  readScales : Fills o.readScales (n * kScaleBytes)
  assembled : o.assembled = true
  write : Fills o.write (n * kRowBytes)
  reported : o.reported = true

/-- No call of a run on the range raises, and reads and writes are complete. -/
structure Outcomes.Complete (o : Outcomes) (lo hi : ℕ) (chunkRows : ℤ) : Prop where
  inspected : o.inspected = true
  openedSource : o.openedSource = true
  openedPartial : o.openedPartial = true
  writeHeader : Fills o.writeHeader kPackedHeader
  chunk : ∀ k, (o.chunk k).Complete
    (chunkLen hi chunkRows.toNat (lo + k * chunkRows.toNat))
  synced : o.synced = true
  renamed : o.renamed = true
  reported : o.reported = true

/-- A complete read of bytes that the file has. -/
theorem rawRead_complete {t : Table} {offset n : ℕ} {o : Option ℕ} (dst : List UInt8)
    (hin : n = 0 ∨ offset + n ≤ t.file.length) (ho : Fills o n) :
    ∃ bytes, rawRead t true offset n o dst = .ok bytes ∧ bytes.length = n := by
  obtain ⟨got, rfl, hle⟩ := ho
  refine ⟨slice t.file offset n, ?_, ?_⟩
  · have hread : pread t.file offset n (some got) = some (slice t.file offset n) := by
      rw [pread, Option.map_some, Nat.min_eq_right hle]
    unfold rawRead
    rw [hread]
  · rcases hin with rfl | hin
    · rfl
    · exact length_slice hin

/-- The rows of a chunk are rows of the table, so their bytes are in the file. -/
theorem packChunk_complete {t : Table} (ht : t.Extent) {hi chunkRows start : ℕ}
    (hhi : hi ≤ t.rows) {o : ChunkOutcome} (ho : o.Complete (chunkLen hi chunkRows start))
    (dst : List UInt8) : ∃ dst', packChunk t hi chunkRows start o dst = .ok dst' := by
  -- the chunk lies inside the table
  have hend : chunkLen hi chunkRows start = 0 ∨ start + chunkLen hi chunkRows start ≤ t.rows := by
    unfold chunkLen
    omega
  generalize hn : chunkLen hi chunkRows start = n at ho hend
  have hweights : n * kWeightBytes = 0 ∨
      t.weightOffset + start * kWeightBytes + n * kWeightBytes ≤ t.file.length := by
    simp only [Table.Extent, kWeightBytes] at *
    omega
  have hscales : n * kScaleBytes = 0 ∨
      t.scaleOffset + start * kScaleBytes + n * kScaleBytes ≤ t.file.length := by
    simp only [Table.Extent, kScaleBytes] at *
    omega
  -- so both reads give all their bytes
  obtain ⟨weights, hw, hwlen⟩ := rawRead_complete dst hweights ho.readWeights
  obtain ⟨scales, hs, hslen⟩ := rawRead_complete dst hscales ho.readScales
  obtain ⟨got, hgot, -⟩ := ho.write
  -- the chunk is written behind what is there
  refine ⟨dst ++ (block n weights scales).take got, ?_⟩
  unfold packChunk
  rw [hn, ho.seekWeights, ho.seekScales]
  dsimp only
  rw [hw]
  show (rawRead _ _ _ _ _ _ >>= fun _ => _) = _
  rw [hs]
  show (if _ then _ else _) = _
  rw [if_neg (not_or.mpr ⟨not_not.mpr hwlen, not_not.mpr hslen⟩), ho.assembled, hgot, ho.reported]
  rfl

theorem packLoop_complete {t : Table} (ht : t.Extent) {hi chunkRows : ℕ} (hhi : hi ≤ t.rows)
    {o : ℕ → ChunkOutcome} {starts : List ℕ} {k : ℕ} (dst : List UInt8)
    (ho : ∀ (j start : ℕ), starts[j]? = some start →
      (o (k + j)).Complete (chunkLen hi chunkRows start)) :
    ∃ dst', packLoop t hi chunkRows o starts k dst = .ok dst' := by
  induction starts generalizing k dst with
  | nil => exact ⟨dst, rfl⟩
  | cons start starts ih =>
    -- the first chunk goes through, and so do the ones behind it
    obtain ⟨mid, hmid⟩ := packChunk_complete ht hhi (ho 0 start rfl) dst
    obtain ⟨dst', hdst'⟩ := ih (k := k + 1) mid fun j start' hj => by
      have := ho (j + 1) start' hj
      rwa [← Nat.add_assoc, Nat.add_right_comm] at this
    refine ⟨dst', ?_⟩
    rw [packLoop, Nat.add_zero] at *
    rw [hmid]
    exact hdst'

/-- A copy whose reads and blocks are complete: what the file took of the header, and the
records. -/
theorem copyRows_goes {t : Table} (ht : t.Extent) (layerId : ℕ) {lo hi : ℕ} (hhi : hi ≤ t.rows)
    {chunkRows : ℤ} (hchunk : 1 ≤ chunkRows) {o : Outcomes} {got : ℕ}
    (hheader : o.writeHeader = some got)
    (ho : ∀ k, (o.chunk k).Complete (chunkLen hi chunkRows.toNat (lo + k * chunkRows.toNat)))
    (hsynced : o.synced = true) :
    copyRows t layerId lo hi chunkRows o =
      .ok ((packedHeader layerId lo hi t.rows).take got ++ records t lo (hi - lo)) := by
  have hne : decide (chunkRows ≠ 0) = true := decide_eq_true (by omega)
  -- the chunks start at lo, one chunk size apart
  have hstart : ∀ (j start : ℕ), (rangeStep lo hi chunkRows)[j]? = some start →
      (o.chunk (0 + j)).Complete (chunkLen hi chunkRows.toNat start) := by
    intro j start hj
    rw [getElem?_rangeStep hj, Nat.zero_add]
    exact ho j
  obtain ⟨dst, hdst⟩ := packLoop_complete ht hhi
    ([] ++ (packedHeader layerId lo hi t.rows).take got) hstart
  -- what has been written is known from the loop
  have hrecords := packLoop_ok hdst fun j start hj => (hstart j start hj).write.full
  rw [flatMap_rangeStep t (by omega), List.nil_append] at hrecords
  unfold copyRows
  rw [hheader, hne, hsynced]
  show (packLoop _ _ _ _ _ _ _ >>= fun _ => _) = _
  rw [hdst, hrecords]
  rfl

/-- A copy that is not disturbed writes the shard. -/
theorem copyRows_complete {t : Table} (ht : t.Extent) (layerId : ℕ) {lo hi : ℕ}
    (hhi : hi ≤ t.rows) {chunkRows : ℤ} (hchunk : 1 ≤ chunkRows) {o : Outcomes}
    (ho : o.Complete lo hi chunkRows) :
    copyRows t layerId lo hi chunkRows o = .ok (packedShard t layerId lo hi) := by
  obtain ⟨got, hgot, hle⟩ := ho.writeHeader
  rw [copyRows_goes ht layerId hhi hchunk hgot ho.chunk ho.synced, packedShard_eq,
    List.take_of_length_le]
  rwa [length_packedHeader]

/-- A negative step leaves what the file took of the header. -/
theorem copyRows_negative (t : Table) (layerId lo hi : ℕ) {chunkRows : ℤ} (hchunk : chunkRows < 0)
    {o : Outcomes} {got : ℕ} (hheader : o.writeHeader = some got) (hsynced : o.synced = true) :
    copyRows t layerId lo hi chunkRows o =
      .ok ((packedHeader layerId lo hi t.rows).take got) := by
  have hne : decide (chunkRows ≠ 0) = true := decide_eq_true (by omega)
  have hnone : rangeStep lo hi chunkRows = [] := if_neg (by omega)
  unfold copyRows
  rw [hheader, hne, hnone, hsynced]
  rfl

/-- The target has the size of the shard of `count` rows. -/
def OutDir.HasSize (d : OutDir) (count : ℕ) : Prop :=
  d.target.map List.length = some (expectedSize count)

/-- **A run that renames its copy** makes it the target. -/
theorem packRange_goes {t : Table} {layerId lo hi : ℕ} (hlo : lo < hi) (hhi : hi ≤ t.rows)
    (hlayer : layerId < 2 ^ 64) (hrows : t.rows < 2 ^ 64) {chunkRows : ℤ} {o : Outcomes}
    (hinspected : o.inspected = true) (hsource : o.openedSource = true)
    (hcopied : o.openedPartial = true) (hrenamed : o.renamed = true) {d : OutDir}
    (hd : ¬ d.HasSize (hi - lo)) {dst : List UInt8}
    (hcopy : copyRows t layerId lo hi chunkRows o = .ok dst) :
    packRange t layerId lo hi chunkRows o d =
      (if o.reported then none else some .raised, { target := some dst, partialFile := none }) := by
  have hrange : 0 ≤ (lo : ℤ) ∧ (lo : ℤ) < hi ∧ (hi : ℤ) ≤ t.rows := by omega
  have hcount : ((hi : ℤ) - lo).toNat = hi - lo := by omega
  -- all four words of the header fit
  have hwords : wordsFit layerId lo hi t.rows = true := by
    unfold wordsFit
    rw [decide_eq_true hlayer, decide_eq_true (show lo < 2 ^ 64 by omega),
      decide_eq_true (show hi < 2 ^ 64 by omega), decide_eq_true hrows]
    rfl
  unfold OutDir.HasSize at hd
  unfold packRange
  rw [if_neg (not_not.mpr hrange), hinspected, Bool.not_true, if_neg Bool.false_ne_true, hcount]
  -- no file of the right size stands in the way
  rw [if_neg hd, Int.toNat_natCast, Int.toNat_natCast, hwords, hsource, hcopied,
    Bool.not_true, Bool.or_false, Bool.or_false, if_neg Bool.false_ne_true, hcopy]
  dsimp only
  rw [hrenamed, Bool.not_true, if_neg Bool.false_ne_true]

/-- A target of the right size is taken for the shard. -/
theorem packRange_skips {t : Table} {layerId lo hi : ℕ} (hlo : lo < hi) (hhi : hi ≤ t.rows)
    {chunkRows : ℤ} {o : Outcomes} (hinspected : o.inspected = true)
    (hreported : o.reportedComplete = true) {d : OutDir} (hd : d.HasSize (hi - lo)) :
    packRange t layerId lo hi chunkRows o d = (none, d) := by
  have hrange : 0 ≤ (lo : ℤ) ∧ (lo : ℤ) < hi ∧ (hi : ℤ) ≤ t.rows := by omega
  have hcount : ((hi : ℤ) - lo).toNat = hi - lo := by omega
  unfold OutDir.HasSize at hd
  unfold packRange
  rw [if_neg (not_not.mpr hrange), hinspected, Bool.not_true, if_neg Bool.false_ne_true, hcount,
    if_pos hd, hreported, if_pos rfl]

/-! ### What a run leaves behind -/

/-- **The ways a run can end**: with the target as it was; or, where the target did not
have the size of the shard, behind the rename, with the copied bytes as the target. -/
theorem packRange_cases (t : Table) (layerId : ℕ) (lo hi chunkRows : ℤ) (o : Outcomes)
    (d : OutDir) :
    ((packRange t layerId lo hi chunkRows o d).2.target = d.target ∧
      ((packRange t layerId lo hi chunkRows o d).1 = none → d.HasSize (hi - lo).toNat)) ∨
    (¬ d.HasSize (hi - lo).toNat ∧ 0 ≤ lo ∧ lo < hi ∧ hi ≤ t.rows ∧
      ((packRange t layerId lo hi chunkRows o d).1 = none ↔ o.reported = true) ∧
      ∃ dst, copyRows t layerId lo.toNat hi.toNat chunkRows o = .ok dst ∧
        (packRange t layerId lo hi chunkRows o d).2.target = some dst) := by
  unfold packRange
  split
  -- a bad range
  · exact Or.inl ⟨rfl, nofun⟩
  · next hrange =>
    rw [not_not] at hrange
    split
    -- a target that cannot be inspected
    · exact Or.inl ⟨rfl, nofun⟩
    · split
      -- a shard of the right size is left as it is
      · next hsize => exact Or.inl ⟨rfl, fun _ => hsize⟩
      · next hsize =>
        -- from here on the target is replaced at the end or not at all
        split
        · exact Or.inl ⟨rfl, nofun⟩
        · split
          · exact Or.inl ⟨rfl, nofun⟩
          · next dst hcopy =>
            split
            -- a rename that fails
            · exact Or.inl ⟨rfl, nofun⟩
            · refine Or.inr ⟨hsize, hrange.1, hrange.2.1, hrange.2.2, ?_, dst, hcopy, rfl⟩
              dsimp only
              split
              · next hrep => exact iff_of_true rfl hrep
              · next hrep => exact iff_of_false nofun hrep

/-- The shard of a checkpoint for a rank: that of its range of a table that has the
range. -/
def Checkpoint.Packs (cp : Checkpoint) (layerId rank tp : ℕ) (bytes : List UInt8) : Prop :=
  ∃ t lo hi, cp.tensorSpan layerId = some t ∧ cp.ownedRowRange layerId rank tp = some (lo, hi) ∧
    0 ≤ lo ∧ lo < hi ∧ hi ≤ t.rows ∧ bytes = packedShard t layerId lo.toNat hi.toNat

/-- The target has the size of the shard of the rank already. -/
def Checkpoint.Complete (cp : Checkpoint) (layerId rank tp : ℕ) (d : OutDir) : Prop :=
  ∃ lo hi, cp.ownedRowRange layerId rank tp = some (lo, hi) ∧ d.HasSize (hi - lo).toNat

/-- **Packing is atomic, up to what a size tells.** Whatever is in the directory and
whatever the calls do, as long as no write is cut short: a target of the right size is
left alone; any other becomes the shard when `pack_layer` returns, and stays as it was
when it does not, unless only the report behind the rename raised. -/
theorem packLayer_atomic (cp : Checkpoint) (layerId rank tp : ℕ) {chunkRows : ℤ}
    (hchunk : 0 ≤ chunkRows) {o : Outcomes}
    (hfull : ∀ lo hi, cp.ownedRowRange layerId rank tp = some (lo, hi) →
      o.WritesFull lo.toNat hi.toNat chunkRows) (d : OutDir) :
    (cp.Complete layerId rank tp d →
      (packLayer cp layerId rank tp chunkRows o d).2.target = d.target) ∧
    (¬ cp.Complete layerId rank tp d →
      (packLayer cp layerId rank tp chunkRows o d).1 = none →
        ∃ bytes, (packLayer cp layerId rank tp chunkRows o d).2.target = some bytes ∧
          cp.Packs layerId rank tp bytes) ∧
    ((packLayer cp layerId rank tp chunkRows o d).1 ≠ none →
      (packLayer cp layerId rank tp chunkRows o d).2.target = d.target ∨
        (o.reported = false ∧
          ∃ bytes, (packLayer cp layerId rank tp chunkRows o d).2.target = some bytes ∧
            cp.Packs layerId rank tp bytes)) := by
  unfold packLayer
  split
  · next t lo hi htable hrange =>
    -- the size is that of the range, whose ends are known
    have hsize : cp.Complete layerId rank tp d ↔ d.HasSize (hi - lo).toNat := by
      constructor
      · rintro ⟨lo', hi', hrange', hsize⟩
        cases hrange.symm.trans hrange'
        exact hsize
      · exact fun hsize => ⟨lo, hi, hrange, hsize⟩
    rcases packRange_cases t layerId lo hi chunkRows o d with
      ⟨htarget, hdone⟩ | ⟨hno, hlo, hlt, hhi, hreported, dst, hcopy, htarget⟩
    -- nothing has moved
    · exact ⟨fun _ => htarget, fun hno hnone => absurd (hsize.mpr (hdone hnone)) hno,
        fun _ => Or.inl htarget⟩
    -- the bytes that were copied are the packed shard
    · have hdst := copyRows_ok hcopy hchunk (hfull lo hi hrange)
      have hpacks : cp.Packs layerId rank tp dst := ⟨t, lo, hi, htable, hrange, hlo, hlt, hhi, hdst⟩
      refine ⟨fun hyes => absurd (hsize.mp hyes) hno, fun _ _ => ⟨dst, htarget, hpacks⟩,
        fun hfault => Or.inr ⟨?_, dst, htarget, hpacks⟩⟩
      exact Bool.eq_false_iff.mpr fun hrep => hfault (hreported.mpr hrep)
  · refine ⟨fun _ => rfl, fun _ hnone => ?_, fun _ => Or.inl rfl⟩
    cases hnone

/-- A checkpoint whose only table has two rows, all of one head. -/
def onlyTwoRows : Checkpoint := ⟨fun _ => some twoRows, fun _ => some [2]⟩

/-- No call raises or is cut short, for up to three records. -/
def undisturbed : Outcomes where
  inspected := true
  reportedComplete := true
  openedSource := true
  openedPartial := true
  writeHeader := some 4096
  chunk _ := ⟨true, some 792, true, some 792, true, some 792, true⟩
  synced := true
  renamed := true
  reported := true

/-- The outcomes of `undisturbed` are enough for chunks of up to three rows. -/
theorem undisturbed_complete (lo hi : ℕ) {chunkRows : ℤ} (h : chunkRows ≤ 3) :
    undisturbed.Complete lo hi chunkRows where
  inspected := rfl
  openedSource := rfl
  openedPartial := rfl
  writeHeader := ⟨4096, rfl, le_rfl⟩
  chunk k := by
    -- a chunk has at most three rows
    have hlen : chunkLen hi chunkRows.toNat (lo + k * chunkRows.toNat) ≤ 3 := by
      unfold chunkLen
      omega
    have hrow : ∀ {size : ℕ}, size ≤ 264 →
        chunkLen hi chunkRows.toNat (lo + k * chunkRows.toNat) * size ≤ 792 :=
      fun hsize => Nat.mul_le_mul hlen hsize
    exact ⟨rfl, ⟨792, rfl, hrow (by decide)⟩, rfl, ⟨792, rfl, hrow (by decide)⟩, rfl,
      ⟨792, rfl, hrow (by decide)⟩, rfl⟩
  synced := rfl
  renamed := rfl
  reported := rfl

/-- Instance: the sync of a run over an old target of another size raises. -/
theorem packLayer_atomic_twoRows :
    let r := packLayer onlyTwoRows 1 0 1 1 { undisturbed with synced := false } ⟨some [7], none⟩
    (onlyTwoRows.Complete 1 0 1 ⟨some [7], none⟩ → r.2.target = some [7]) ∧
    (¬ onlyTwoRows.Complete 1 0 1 ⟨some [7], none⟩ → r.1 = none →
      ∃ bytes, r.2.target = some bytes ∧ onlyTwoRows.Packs 1 0 1 bytes) ∧
    (r.1 ≠ none → r.2.target = some [7] ∨
      (undisturbed.reported = false ∧
        ∃ bytes, r.2.target = some bytes ∧ onlyTwoRows.Packs 1 0 1 bytes)) :=
  packLayer_atomic onlyTwoRows 1 0 1 (by decide)
    (fun lo hi h => by
      cases h
      refine ⟨fun got hgot => ?_, fun k got hgot => ?_⟩
      · cases hgot
        exact le_rfl
      · cases hgot
        have hlen : chunkLen 2 1 (0 + k * 1) ≤ 1 := by
          unfold chunkLen
          omega
        exact le_trans (Nat.mul_le_mul_right _ hlen) (by decide))
    ⟨some [7], none⟩

/-- **What a size does not tell**, and a count that is ignored. A target of zeros of the
right size is taken for the shard. A write of the header that takes no bytes leaves the
records alone, and a negative step the header alone. A report that raises behind the
rename leaves a new target. -/
theorem packLayer_not_atomic :
    (packLayer onlyTwoRows 1 0 1 1 undisturbed ⟨some (List.replicate 4624 0), none⟩ =
        (none, ⟨some (List.replicate 4624 0), none⟩) ∧
      ¬ onlyTwoRows.Packs 1 0 1 (List.replicate 4624 0)) ∧
    (packLayer onlyTwoRows 1 0 1 1 { undisturbed with writeHeader := some 0 } ⟨none, none⟩ =
        (none, ⟨some (records twoRows 0 2), none⟩) ∧
      ¬ onlyTwoRows.Packs 1 0 1 (records twoRows 0 2)) ∧
    (packLayer onlyTwoRows 1 0 1 (-1) undisturbed ⟨none, none⟩ =
        (none, ⟨some (packedHeader 1 0 2 2), none⟩) ∧
      ¬ onlyTwoRows.Packs 1 0 1 (packedHeader 1 0 2 2)) ∧
    packLayer onlyTwoRows 1 0 1 1 { undisturbed with reported := false } ⟨none, none⟩ =
      (some .raised, ⟨some (packedShard twoRows 1 0 2), none⟩) := by
  have hpacks : ∀ bytes, onlyTwoRows.Packs 1 0 1 bytes → bytes = packedShard twoRows 1 0 2 := by
    rintro bytes ⟨t, lo, hi, htable, hrange, -, -, -, rfl⟩
    cases htable
    cases hrange
    rfl
  have hrun : ∀ (chunkRows : ℤ) (o : Outcomes) (d : OutDir),
      packLayer onlyTwoRows 1 0 1 chunkRows o d =
        packRange twoRows 1 (0 : ℕ) (2 : ℕ) chunkRows o d := fun _ _ _ => rfl
  have hrows : (2 : ℕ) ≤ twoRows.rows := le_rfl
  have hcalm : undisturbed.Complete 0 2 1 := undisturbed_complete 0 2 (by decide)
  -- the shard has a header and two records
  have hlength := length_packedShard 1 0 twoRows_extent hrows
  have hheader := length_packedHeader 1 0 2 2
  have hsum : (packedShard twoRows 1 0 2).length =
      kPackedHeader + (records twoRows 0 2).length := by
    rw [packedShard_eq, List.length_append, length_packedHeader]
  have hnone : ¬ OutDir.HasSize ⟨none, none⟩ (2 - 0) := nofun
  -- the old target, a header that was not written, a negative chunk size, a failed report
  refine ⟨⟨?_, fun h => ?_⟩, ⟨?_, fun h => ?_⟩, ⟨?_, fun h => ?_⟩, ?_⟩
  · rw [hrun]
    apply packRange_skips (by decide) hrows rfl rfl
    rw [OutDir.HasSize, Option.map_some, List.length_replicate]
    rfl
  · -- the first byte of the magic is not zero
    have hzero := congrArg (fun bytes => bytes[0]?) (hpacks _ h)
    exact absurd hzero (by decide +kernel)
  · have hcopy := copyRows_goes twoRows_extent 1 hrows (show (1 : ℤ) ≤ 1 from le_rfl)
      (o := { undisturbed with writeHeader := some 0 }) rfl hcalm.chunk rfl
    rw [List.take_zero, List.nil_append] at hcopy
    rw [hrun, packRange_goes (by decide) hrows (by decide) (by decide) rfl rfl rfl rfl hnone hcopy]
    rfl
  · have hlen := congrArg List.length (hpacks _ h)
    simp only [kPackedHeader] at hsum
    omega
  · have hcopy := copyRows_negative twoRows 1 0 2 (show (-1 : ℤ) < 0 by decide)
      (o := undisturbed) rfl rfl
    rw [List.take_of_length_le (by rw [length_packedHeader]; decide)] at hcopy
    rw [hrun, packRange_goes (by decide) hrows (by decide) (by decide) rfl rfl rfl rfl hnone hcopy]
    rfl
  · rw [← hpacks _ h, hheader] at hlength
    exact absurd hlength (by decide)
  · have hcopy := copyRows_complete twoRows_extent 1 hrows le_rfl hcalm
    rw [hrun, packRange_goes (o := { undisturbed with reported := false }) (by decide) hrows
      (by decide) (by decide) rfl rfl rfl rfl hnone hcopy]
    rfl

/-! ### Reading the shard back -/

/-- What `read_from` asks for when it reads `length` bytes at `offset` from disk. -/
structure PageRead where
  base : ℕ
  delta : ℕ
  requested : ℕ
deriving DecidableEq, Repr

/-- The variables of `read_from`. -/
def pageRead (offset length : ℕ) : PageRead where
  base := offset / kPage * kPage
  delta := offset - offset / kPage * kPage
  requested := requested (offset - offset / kPage * kPage) length

theorem readFrom_eq (file : List UInt8) (offset length : ℕ) (o : Option ℕ) :
    readFrom false file offset length o =
      match pread file (pageRead offset length).base (pageRead offset length).requested o with
      | none => .error "short or failed direct read"
      | some page =>
        if page.length < (pageRead offset length).delta + length then
          .error "short or failed direct read"
        else .ok (slice page (pageRead offset length).delta length) := rfl

/-- The read asks for whole pages, at a page, that fit `page[8192]`, and the bytes
copied out of the buffer are among those asked for. -/
structure PageRead.Inside (p : PageRead) (length : ℕ) : Prop where
  base : p.base % kPage = 0
  requested : p.requested % kPage = 0
  buffer : p.requested ≤ 8192
  copied : p.delta + length ≤ p.requested

/-- Reads of up to a row stay inside the page buffer, wherever they start. -/
theorem pageRead_inside (offset : ℕ) {length : ℕ} (h : length ≤ kRowBytes) :
    (pageRead offset length).Inside length where
  base := Nat.mul_mod_left ..
  requested := Nat.mul_mod_left ..
  buffer := requested_le h
  copied := by
    simp only [pageRead, RowStore.requested, kPage]
    omega

/-- A complete read of a part of a file. -/
theorem readFrom_fills {resident : Bool} {file : List UInt8} {offset length : ℕ} {o : Option ℕ}
    (hin : offset + length ≤ file.length)
    (ho : resident = false → Fills o (pageRead offset length).requested) :
    readFrom resident file offset length o = .ok (slice file offset length) := by
  cases resident with
  | true => rfl
  | false =>
    obtain ⟨got, rfl, hle⟩ := ho rfl
    exact readFrom_complete hin hle

/-- The reads that the unpacked path makes for `id` are complete. -/
structure Store.ReadsComplete (s : Store) (id : ℕ) (o : Option ℕ × Option ℕ) : Prop where
  weight : s.resident = false →
    Fills o.1 (pageRead (s.weightOffset + id * kWeightBytes) kWeightBytes).requested
  scale : s.resident = false → s.scales = none →
    Fills o.2 (pageRead (s.scaleOffset + id * kScaleBytes) kScaleBytes).requested

/-- The unpacked path gives the row. -/
theorem readRow_unpacked {t : Table} {s : Store} (hs : Sources t s) {id : ℕ} (hid : s.Owns id)
    {o : Option ℕ × Option ℕ} (ho : s.ReadsComplete id o) :
    readRow { s with packed := none } id o = .ok (t.row id) := by
  obtain rfl := hs.table
  obtain ⟨hlo, hhi⟩ := hid
  have hrows := lt_of_lt_of_le hhi hs.range.2
  have hext := hs.extent
  -- both windows lie in the file
  have hwin : s.weightOffset + id * kWeightBytes + kWeightBytes ≤ s.file.length := by
    simp only [Table.Extent, kWeightBytes] at *
    omega
  have hsin : s.scaleOffset + id * kScaleBytes + kScaleBytes ≤ s.file.length := by
    simp only [Table.Extent, kScaleBytes] at *
    omega
  have hweight := readFrom_fills hwin ho.weight
  unfold readRow
  dsimp only
  rw [hweight]
  -- the scales are pinned, or they are read too
  cases hsc : s.scales with
  | some scales =>
    show Except.ok (_ ++ slice scales ((id - s.rowLo) * kScaleBytes) kScaleBytes) = _
    rw [hs.scales scales hsc, slice_pinned s.toTable hlo hhi]
    rfl
  | none =>
    have hscale := readFrom_fills hsin fun h => ho.scale h hsc
    show (readFrom _ _ _ _ _ >>= fun _ => _) = _
    rw [hscale]
    rfl

/-- The packed path gives the row, by one complete read. -/
theorem readRow_packed {t : Table} {s : Store} (ht : t.Extent) {layerId lo hi : ℕ}
    (hhi : hi ≤ t.rows) (hlo : s.rowLo = lo)
    (hp : s.packed = some (packedShard t layerId lo hi)) {id : ℕ} (hid : lo ≤ id) (hlt : id < hi)
    {o : Option ℕ × Option ℕ}
    (ho : Fills o.1 (pageRead (kPackedHeader + (id - lo) * kRowBytes) kRowBytes).requested) :
    readRow s id o = .ok (t.row id) := by
  subst hlo
  have hlen := length_packedShard layerId s.rowLo ht hhi
  -- the record lies in the shard
  have hin : kPackedHeader + (id - s.rowLo) * kRowBytes + kRowBytes ≤
      (packedShard t layerId s.rowLo hi).length := by
    rw [hlen]
    simp only [kRowBytes]
    omega
  have hread := readFrom_fills hin fun (_ : false = false) => ho
  unfold readRow
  rw [hp]
  dsimp only
  rw [hread, slice_packedShard ht layerId hhi hid hlt]

/-- **A shard is accepted exactly for its own range**, when its header can be read. -/
theorem rowStoreAttachPacked_iff {t : Table} (ht : t.Extent) {layerId lo hi : ℕ} (hlo : lo < hi)
    (hhi : hi ≤ t.rows) (hlayer : layerId < 2 ^ 64) (hrows : t.rows < 2 ^ 64) (s : Store)
    (layer : ℕ) {got : ℕ} (hgot : kPage ≤ got) :
    rowStoreAttachPacked s (some (packedShard t layerId lo hi)) layer (some got) =
      if layer = layerId ∧ s.rowLo = lo ∧ s.rowHi = hi ∧ s.rows = t.rows then
        .ok ({ s with packed := some (packedShard t layerId lo hi) }, 1)
      else .ok (s, 0) := by
  have hlen := length_packedShard layerId lo ht hhi
  have hheader : pread (packedShard t layerId lo hi) 0 kPage (some got) =
      some (packedHeader layerId lo hi t.rows) := by
    rw [pread, Option.map_some, Nat.min_eq_right hgot, packedShard]
    exact congrArg some (slice_append_self (length_packedHeader ..))
  -- every word of the header is read back
  have hword : ∀ k w, [kPackedMagic, layerId, lo, hi, t.rows, kRowBytes][k]? = some w →
      w < 2 ^ 64 → headerWord (packedHeader layerId lo hi t.rows) k = w := by
    intro k w hk hw
    have h := headerWord_packedHeader [] hk hw
    rwa [List.append_nil] at h
  have h0 := hword 0 _ rfl (by decide)
  have h1 := hword 1 _ rfl hlayer
  have h2 := hword 2 _ rfl (by omega)
  have h3 := hword 3 _ rfl (by omega)
  have h4 := hword 4 _ rfl hrows
  have h5 := hword 5 _ rfl (by decide)
  unfold rowStoreAttachPacked
  dsimp only
  rw [hheader]
  dsimp only
  rw [length_packedHeader, if_neg (by decide), h0, h1, h2, h3, h4, h5, hlen]
  -- one test for each word
  split
  · next hbad =>
    rw [if_neg]
    rintro ⟨rfl, hl, hh, hr⟩
    rcases hbad with h | h | h | h | h | h
    · exact h rfl
    · exact h rfl
    · exact h hl.symm
    · exact h hh.symm
    · exact h hr.symm
    · exact h rfl
  · next hgood =>
    simp only [not_or, not_not] at hgood
    obtain ⟨-, hl, hlo', hhi', hr, -⟩ := hgood
    rw [if_neg (lt_irrefl _), if_pos ⟨hl.symm, hlo'.symm, hhi'.symm, hr.symm⟩]

/-- The shard `shard` of the rows `lo ≤ id < hi` reads back as the table. -/
structure ReadsBack (t : Table) (layerId lo hi : ℕ) (shard : List UInt8) : Prop where
  length : shard.length = 4096 + (hi - lo) * 264
  /-- A header that can be read is accepted for exactly this layer, range and table. -/
  accepted : ∀ (s : Store) (layer got : ℕ), kPage ≤ got →
    ∃ s' r, rowStoreAttachPacked s (some shard) layer (some got) = .ok (s', r) ∧
      (r = 1 ↔ layer = layerId ∧ s.rowLo = lo ∧ s.rowHi = hi ∧ s.rows = t.rows)
  /-- On any store that the calls on the table reach: the one read of the packed path gives
  the bytes of the two of the other. -/
  fetched : ∀ s, (calls t).ReachableVia (fun s l => WellFormed t l ∧ ReadyFor s l) s →
    ∀ s', rowStoreAttachPacked s (some shard) layerId (some kPage) = .ok (s', 1) →
      ∀ id, lo ≤ id → id < hi → ∀ o o' : Option ℕ × Option ℕ,
        Fills o.1 (pageRead (kPackedHeader + (id - lo) * kRowBytes) kRowBytes).requested →
        s.ReadsComplete id o' →
        readRow s' id o = readRow { s with packed := none } id o' ∧
          readRow s' id o = .ok (slice t.file (t.weightOffset + id * 256) 256 ++
            slice t.file (t.scaleOffset + id * 8) 8)
  /-- No read of a record, or of a weight or a scale, leaves its page buffer. -/
  inside : ∀ offset length, length ≤ kRowBytes → (pageRead offset length).Inside length

theorem readsBack_packedShard {t : Table} (ht : t.Extent) {layerId lo hi : ℕ} (hlo : lo < hi)
    (hhi : hi ≤ t.rows) (hlayer : layerId < 2 ^ 64) (hrows : t.rows < 2 ^ 64) :
    ReadsBack t layerId lo hi (packedShard t layerId lo hi) where
  length := length_packedShard layerId lo ht hhi
  accepted s layer got hgot := by
    rw [rowStoreAttachPacked_iff ht hlo hhi hlayer hrows s layer hgot]
    -- the four tests of the header are the match
    split
    · next hmatch => exact ⟨_, 1, rfl, iff_of_true rfl hmatch⟩
    · next hno => exact ⟨s, 0, rfl, iff_of_false (by decide) hno⟩
  fetched s hs s' hattach id hid hlt o o' ho ho' := by
    have hsources := (serving_reachable hs).sources
    rw [rowStoreAttachPacked_iff ht hlo hhi hlayer hrows s layerId le_rfl] at hattach
    split at hattach
    · next hmatch =>
      obtain ⟨-, rfl, rfl, -⟩ := hmatch
      obtain ⟨rfl, -⟩ := Prod.mk.inj (Except.ok.inj hattach)
      -- the shard and the table give the same row
      have hpacked := readRow_packed
        (s := { s with packed := some (packedShard t layerId s.rowLo s.rowHi) }) ht hhi rfl rfl hid
        hlt ho
      exact ⟨hpacked.trans (readRow_unpacked hsources ⟨hid, hlt⟩ ho').symm, hpacked⟩
    · have hzero := (Prod.mk.inj (Except.ok.inj hattach)).2
      exact absurd hzero (by decide)
  inside offset length h := pageRead_inside offset h

/-- **Packing, attaching and fetching agree with the two reads.** A `pack_layer` that is
not disturbed, and does not find a target of the right size, leaves a shard that reads
back as the table. -/
theorem pack_attach_fetch {cp : Checkpoint} {layerId rank tp : ℕ} {t : Table} {lo hi : ℕ}
    (htable : cp.tensorSpan layerId = some t)
    (hrange : cp.ownedRowRange layerId rank tp = some ((lo : ℤ), (hi : ℤ)))
    (ht : t.Extent) (hlo : lo < hi) (hhi : hi ≤ t.rows)
    (hlayer : layerId < 2 ^ 64) (hrows : t.rows < 2 ^ 64)
    {chunkRows : ℤ} (hchunk : 1 ≤ chunkRows) {o : Outcomes} (ho : o.Complete lo hi chunkRows)
    {d : OutDir} (hd : ¬ d.HasSize (hi - lo)) :
    ∃ shard, packLayer cp layerId rank tp chunkRows o d =
        (none, { target := some shard, partialFile := none }) ∧
      ReadsBack t layerId lo hi shard := by
  refine ⟨packedShard t layerId lo hi, ?_, readsBack_packedShard ht hlo hhi hlayer hrows⟩
  unfold packLayer
  rw [htable, hrange]
  dsimp only
  rw [packRange_goes hlo hhi hlayer hrows ho.inspected ho.openedSource ho.openedPartial ho.renamed
    hd (copyRows_complete ht layerId hhi hchunk ho), ho.reported, if_pos rfl]

/-- Instance: both rows in chunks of one, into an empty directory. -/
theorem pack_attach_fetch_twoRows :
    ∃ shard, packLayer onlyTwoRows 1 0 1 1 undisturbed ⟨none, none⟩ =
        (none, { target := some shard, partialFile := none }) ∧
      ReadsBack twoRows 1 0 2 shard :=
  pack_attach_fetch rfl (show _ = some (((0 : ℕ) : ℤ), ((2 : ℕ) : ℤ)) from rfl) twoRows_extent
    (by decide) (by decide) (by decide) (by decide) (by decide)
    (undisturbed_complete _ _ (by decide)) nofun

end RowStore
end Dsv41Overlay
