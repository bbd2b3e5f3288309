import Dsv41Overlay.Lib.Cuts
import Dsv41Overlay.RowStore.Lookup
import Mathlib.Algebra.Order.Ring.Int
import Mathlib.Algebra.BigOperators.Group.List.Basic

/-!
# Sharding an Engram table

An Engram layer hashes into the buckets of its heads, which lie one after another
in the table: head `h` has the row ids from the sum of the sizes before it. A
rank owns consecutive whole heads, `part_n_hash_cols` of them, the last rank what
is left.

Three places compute these bounds: `engram_layout.shard_range` (for the packer),
the file backend's `__init__`, which does not clamp the end of the heads, and its
`lookup`, which clamps it to the columns of the index matrix and pads. They agree
(`shardRange_eq`), and since `__init__` raises when a rank would be left without
heads, the ranges cut the table and the heads into non-empty blocks
(`rowBound_lt`, `headBound_lt`).
-/

namespace Dsv41Overlay.Engram

/-! ### The packer's bounds -/

/-- How many heads a full rank owns: `part_n_hash_cols`. -/
def partNHashCols (nHashCols numShards : ℕ) : ℕ := (nHashCols + numShards - 1) / numShards

/-- What `shard_range` returns. -/
structure ShardRange where
  vocabStart : ℤ
  vocabEnd : ℤ
  headStart : ℕ
  localHeads : ℤ
deriving DecidableEq, Repr

/-- `shard_range`. -/
def shardRange (sizes : List ℤ) (rank tp dpSize dpRank : ℕ) : ShardRange :=
  let nHashCols := sizes.length
  let numShards := tp * dpSize
  let part := partNHashCols nHashCols numShards
  let headStart := (rank * dpSize + dpRank) * part
  let headEnd := min (headStart + part) nHashCols
  { vocabStart := (sizes.take headStart).sum
    vocabEnd := (sizes.take headEnd).sum
    headStart
    localHeads := (headEnd : ℤ) - headStart }

/-- `pack_engram.owned_row_range`, from the layer's head sizes. -/
def ownedRowRange (sizes : List ℤ) (rank tp : ℕ) : ℤ × ℤ :=
  let r := shardRange sizes rank tp 1 0
  (r.vocabStart, r.vocabEnd)

/-! ### The file backend's bounds -/

/-- What the backend's `__init__` raises about the heads. -/
inductive InitError
  | headSizes
  | ranksWithoutHeads (heads tp dp : ℕ)
  deriving DecidableEq, Repr

/-- The text of the error. -/
def InitError.message : InitError → String
  | .headSizes => "Engram head_sizes must be positive"
  | .ranksWithoutHeads heads tp dp =>
    "Engram sharding leaves ranks without hash heads: " ++ toString heads ++ " heads over TP=" ++
      toString tp ++ " x DP=" ++ toString dp

/-- The shard attributes of the backend's embedding. -/
structure Backend where
  nHashCols : ℕ
  partNHashCols : ℕ
  headStart : ℕ
  vocabStartIdx : ℤ
  vocabEndIdx : ℤ
  partNumEmbeddings : ℤ
deriving DecidableEq, Repr

/-- The shard attributes for one shard rank. The end of the heads is not clamped. -/
def backend (headSizes : List ℤ) (tpSize dpSize shardRank : ℕ) : Backend :=
  let nHashCols := headSizes.length
  let numShards := tpSize * dpSize
  let part := partNHashCols nHashCols numShards
  let headStart := shardRank * part
  let headEnd := headStart + part
  let vocabStartIdx := (headSizes.take headStart).sum
  let vocabEndIdx := (headSizes.take headEnd).sum
  { nHashCols
    partNHashCols := part
    headStart
    vocabStartIdx
    vocabEndIdx
    partNumEmbeddings := vocabEndIdx - vocabStartIdx }

/-- The shard part of `__init__`; `shardRank` is `engram_head_shard_rank()`. -/
def init (headSizes : List ℤ) (tpSize dpSize shardRank : ℕ) : Except InitError Backend :=
  if headSizes = [] ∨ headSizes.any (fun size => size ≤ 0) then .error .headSizes
  else
    let nHashCols := headSizes.length
    let numShards := tpSize * dpSize
    if nHashCols ≤ (numShards - 1) * partNHashCols nHashCols numShards then
      .error (.ranksWithoutHeads nHashCols tpSize dpSize)
    else .ok (backend headSizes tpSize dpSize shardRank)

/-! ### The lookup's ids -/

/-- The ids of one token: its local columns, padded with `-1` to the rank's full
share. `cols` is the width of the index matrix. -/
def localIds (b : Backend) (cols : ℕ) (row : List ℤ) : List ℤ :=
  let headEnd := min (b.headStart + b.partNHashCols) cols
  let ids := (row.take headEnd).drop b.headStart
  ids ++ List.replicate (b.partNHashCols - ids.length) (-1)

/-- The text of the error of a lookup that does not fit the staging buffer. -/
def stagingMessage (rows staging : ℕ) : String :=
  "Engram lookup rows=" ++ toString rows ++ " exceeds staging " ++ toString staging

/-- `lookup` up to the call of the row store: the flat ids it asks for. -/
def lookup (b : Backend) (staging cols : ℕ) (indices : List (List ℤ)) :
    Except String (List ℤ) :=
  let rows := indices.length * b.partNHashCols
  if rows = 0 then .ok []
  else if staging < rows then .error (stagingMessage rows staging)
  else .ok (indices.flatMap (localIds b cols))

/-! ### Sums of positive sizes -/

section Sums

variable {sizes : List ℤ}

theorem sum_take_succ_lt (hpos : ∀ s ∈ sizes, 0 < s) {i : ℕ} (hi : i < sizes.length) :
    (sizes.take i).sum < (sizes.take (i + 1)).sum := by
  have hs := hpos _ (List.getElem_mem hi)
  rw [List.take_succ_eq_append_getElem hi, List.sum_append, List.sum_singleton]
  omega

/-- Taking more heads never gives fewer rows. -/
theorem sum_take_le (hpos : ∀ s ∈ sizes, 0 < s) {i j : ℕ} (hij : i ≤ j) :
    (sizes.take i).sum ≤ (sizes.take j).sum := by
  induction j with
  | zero =>
    obtain rfl : i = 0 := Nat.le_zero.mp hij
    exact le_refl _
  | succ j ih =>
    rcases Nat.lt_or_ge j i with h | h
    · obtain rfl : i = j + 1 := Nat.le_antisymm hij h
      exact le_refl _
    · apply (ih h).trans
      rcases Nat.lt_or_ge j sizes.length with hj | hj
      · exact (sum_take_succ_lt hpos hj).le
      · rw [List.take_of_length_le hj, List.take_of_length_le (Nat.le_succ_of_le hj)]

theorem sum_take_lt (hpos : ∀ s ∈ sizes, 0 < s) {i j : ℕ} (hij : i < j) (hi : i < sizes.length) :
    (sizes.take i).sum < (sizes.take j).sum :=
  (sum_take_succ_lt hpos hi).trans_le (sum_take_le hpos hij)

end Sums

/-! ### The shares -/

section Shares

variable {n k : ℕ}

/-- The shares of all ranks are enough for the heads. -/
theorem le_mul_partNHashCols (n : ℕ) (hk : 0 < k) : n ≤ k * partNHashCols n k := by
  have hlt : n + k - 1 < k * partNHashCols n k + k := by
    calc n + k - 1 < k * ((n + k - 1) / k + 1) := Nat.lt_mul_div_succ _ hk
      _ = k * partNHashCols n k + k := Nat.mul_succ _ _
  omega

/-- When the shares of all ranks but one leave something, every rank starts inside
the heads. -/
theorem mul_partNHashCols_lt (h : (k - 1) * partNHashCols n k < n) {r : ℕ} (hr : r < k) :
    r * partNHashCols n k < n :=
  (Nat.mul_le_mul_right _ (Nat.le_sub_one_of_lt hr)).trans_lt h

end Shares

/-! ### The bounds agree -/

/-- Where the heads of shard rank `r` start; the end of the last one is clamped. -/
def headBound (n numShards r : ℕ) : ℕ := min (r * partNHashCols n numShards) n

/-- Where the row ids of shard rank `r` start. -/
def rowBound (sizes : List ℤ) (numShards r : ℕ) : ℤ :=
  (sizes.take (r * partNHashCols sizes.length numShards)).sum

variable {sizes : List ℤ} {tp dp r : ℕ}

theorem backend_vocabStartIdx :
    (backend sizes tp dp r).vocabStartIdx = rowBound sizes (tp * dp) r := rfl

theorem backend_vocabEndIdx :
    (backend sizes tp dp r).vocabEndIdx = rowBound sizes (tp * dp) (r + 1) := by
  show (sizes.take (r * _ + _)).sum = (sizes.take ((r + 1) * _)).sum
  rw [Nat.succ_mul]

/-- **The packer and the backend agree**: taking too many heads is no different from
taking all. -/
theorem shardRange_eq (sizes : List ℤ) (rank tp dp dpRank : ℕ) :
    (shardRange sizes rank tp dp dpRank).vocabStart =
        (backend sizes tp dp (rank * dp + dpRank)).vocabStartIdx ∧
      (shardRange sizes rank tp dp dpRank).vocabEnd =
        (backend sizes tp dp (rank * dp + dpRank)).vocabEndIdx ∧
      (shardRange sizes rank tp dp dpRank).headStart =
        (backend sizes tp dp (rank * dp + dpRank)).headStart ∧
      (shardRange sizes rank tp dp dpRank).localHeads =
        ((min ((backend sizes tp dp (rank * dp + dpRank)).headStart +
            (backend sizes tp dp (rank * dp + dpRank)).partNHashCols) sizes.length : ℕ) : ℤ) -
          (backend sizes tp dp (rank * dp + dpRank)).headStart := by
  refine ⟨rfl, ?_, rfl, rfl⟩
  show (sizes.take (min _ sizes.length)).sum = (sizes.take _).sum
  rw [← List.take_eq_take_min]

/-- `__init__` succeeds exactly where the sizes are positive and every rank gets a
head, whatever the rank. -/
theorem init_ok {b : Backend} (h : init sizes tp dp r = .ok b) :
    b = backend sizes tp dp r ∧ (∀ s ∈ sizes, 0 < s) ∧
      (tp * dp - 1) * partNHashCols sizes.length (tp * dp) < sizes.length := by
  unfold init at h
  split at h
  · cases h
  · next hsizes =>
    dsimp only at h
    split at h
    · cases h
    · next hheads =>
      cases h
      refine ⟨rfl, ?_, not_le.mp hheads⟩
      intro s hs
      by_contra hle
      apply hsizes
      right
      exact List.any_eq_true.mpr ⟨s, hs, decide_eq_true (not_lt.mp hle)⟩

/-! ### The cut of the table and of the heads -/

/-- What `__init__` has checked. -/
structure Sharded (sizes : List ℤ) (numShards : ℕ) : Prop where
  /-- There is a shard. -/
  shards : 0 < numShards
  /-- Every head has rows. -/
  positive : ∀ s ∈ sizes, 0 < s
  /-- Every rank has heads. -/
  heads : (numShards - 1) * partNHashCols sizes.length numShards < sizes.length

section Cut

variable {k : ℕ} (hs : Sharded sizes k)
include hs

/-- The end of a rank's rows, with the clamp of the head range. -/
theorem headBound_eq {r : ℕ} (hr : r < k) :
    headBound sizes.length k r = r * partNHashCols sizes.length k :=
  min_eq_left (mul_partNHashCols_lt hs.heads hr).le

theorem headBound_last : headBound sizes.length k k = sizes.length :=
  min_eq_right (le_mul_partNHashCols _ hs.shards)

theorem rowBound_last : rowBound sizes k k = sizes.sum := by
  unfold rowBound
  rw [List.take_of_length_le (le_mul_partNHashCols _ hs.shards)]

theorem partNHashCols_pos : 0 < partNHashCols sizes.length k := by
  apply Nat.pos_of_ne_zero
  intro h0
  have hle := le_mul_partNHashCols sizes.length hs.shards
  have hlt := hs.heads
  rw [h0] at hle hlt
  omega

/-- The heads are cut into non-empty blocks. -/
theorem headBound_lt : ∀ r < k, headBound sizes.length k r < headBound sizes.length k (r + 1) := by
  intro r hr
  rw [headBound_eq hs hr]
  unfold headBound
  have hlt := mul_partNHashCols_lt hs.heads hr
  have hpos := partNHashCols_pos hs
  rw [Nat.succ_mul]
  omega

/-- The row ids are cut into non-empty blocks. -/
theorem rowBound_lt : ∀ r < k, rowBound sizes k r < rowBound sizes k (r + 1) := by
  intro r hr
  apply sum_take_lt hs.positive
  · have hpos := partNHashCols_pos hs
    rw [Nat.succ_mul]
    omega
  · exact mul_partNHashCols_lt hs.heads hr

/-- The bucket of an owned head lies in the owned rows. -/
theorem bucket_mem {r h : ℕ} (hlo : r * partNHashCols sizes.length k ≤ h)
    (hhi : h < (r + 1) * partNHashCols sizes.length k) :
    rowBound sizes k r ≤ (sizes.take h).sum ∧
      (sizes.take (h + 1)).sum ≤ rowBound sizes k (r + 1) :=
  ⟨sum_take_le hs.positive hlo, sum_take_le hs.positive hhi⟩

end Cut

/-! ### The columns a rank looks up -/

section Columns

variable {b : Backend} {cols : ℕ} {row : List ℤ}

/-- A token always takes the rank's full share of ids. -/
theorem length_localIds (b : Backend) (cols : ℕ) (row : List ℤ) :
    (localIds b cols row).length = b.partNHashCols := by
  unfold localIds
  rw [List.length_append, List.length_replicate, List.length_drop, List.length_take]
  omega

/-- **Slot `c` of a token** is the rank's column `c`, or `-1` past the last column. -/
theorem getElem?_localIds (hrow : row.length = cols) {c : ℕ} (hc : c < b.partNHashCols) :
    (localIds b cols row)[c]? =
      if b.headStart + c < cols then row[b.headStart + c]? else some (-1) := by
  have hlen : ((row.take (min (b.headStart + b.partNHashCols) cols)).drop b.headStart).length =
      min (b.headStart + b.partNHashCols) cols - b.headStart := by
    rw [List.length_drop, List.length_take]
    omega
  unfold localIds
  split
  · next hin =>
    rw [List.getElem?_append_left (by omega), List.getElem?_drop,
      List.getElem?_take_of_lt (by omega)]
  · next hout =>
    rw [List.getElem?_append_right (by omega), List.getElem?_replicate, if_pos (by omega)]

/-- A slot of the flat ids. -/
theorem getElem?_flatMap_localIds {indices : List (List ℤ)} {t c : ℕ} (ht : t < indices.length)
    (hc : c < b.partNHashCols) :
    (indices.flatMap (localIds b cols))[t * b.partNHashCols + c]? =
      (localIds b cols indices[t])[c]? := by
  have hslice := slice_flatMap (fun row _ => length_localIds b cols row)
    (List.getElem?_eq_getElem ht)
  rw [← hslice, getElem?_slice _ _ hc]

theorem length_flatMap_localIds (indices : List (List ℤ)) :
    (indices.flatMap (localIds b cols)).length = indices.length * b.partNHashCols :=
  length_flatMap_of_size fun row _ => length_localIds b cols row

/-- The ids of a lookup that fits its staging buffer. -/
theorem lookup_ok {staging : ℕ} {indices : List (List ℤ)} {ids : List ℤ}
    (h : lookup b staging cols indices = .ok ids) : ids = indices.flatMap (localIds b cols) := by
  unfold lookup at h
  dsimp only at h
  split at h
  · next h0 =>
    cases h
    exact (List.length_eq_zero_iff.mp ((length_flatMap_localIds indices).trans h0)).symm
  · split at h
    · cases h
    · cases h
      rfl

/-- **A lookup succeeds exactly when its rows fit the staging buffer.** -/
theorem exists_lookup_ok {staging : ℕ} (indices : List (List ℤ)) :
    (∃ ids, lookup b staging cols indices = .ok ids) ↔
      indices.length * b.partNHashCols ≤ staging := by
  unfold lookup
  dsimp only
  split
  · next h0 =>
    -- no rows: nothing is staged
    rw [h0]
    exact iff_of_true ⟨[], rfl⟩ (Nat.zero_le _)
  · split
    · next hlt =>
      refine iff_of_false ?_ (Nat.not_le.mpr hlt)
      rintro ⟨ids, h⟩
      cases h
    · next hle => exact iff_of_true ⟨_, rfl⟩ (Nat.not_lt.mp hle)

end Columns

/-! ### Agreement -/

/-- What the ranks of a sharded table serve, for the shard attributes
`shard 0, …, shard (numShards - 1)`. -/
structure Partition (sizes : List ℤ) (numShards : ℕ) (shard : ℕ → Backend) : Prop where
  /-- The first range starts at the first row. -/
  first : (shard 0).vocabStartIdx = 0
  /-- The ranges are consecutive. -/
  consecutive : ∀ r, r + 1 < numShards → (shard r).vocabEndIdx = (shard (r + 1)).vocabStartIdx
  /-- The last range ends with the last row. -/
  last : (shard (numShards - 1)).vocabEndIdx = sizes.sum
  /-- No range is empty. -/
  nonempty : ∀ r < numShards, (shard r).vocabStartIdx < (shard r).vocabEndIdx
  /-- The ranges are disjoint. -/
  disjoint : ∀ r < numShards, ∀ r' < numShards, r ≠ r' →
    ∀ id, (shard r).vocabStartIdx ≤ id → id < (shard r).vocabEndIdx →
      ¬ ((shard r').vocabStartIdx ≤ id ∧ id < (shard r').vocabEndIdx)
  /-- A row has one owner. -/
  owner : ∀ id, 0 ≤ id → id < sizes.sum →
    ∃! r, r < numShards ∧ (shard r).vocabStartIdx ≤ id ∧ id < (shard r).vocabEndIdx
  /-- A head has one owner. -/
  head : ∀ h < sizes.length, ∃! r, r < numShards ∧ (shard r).headStart ≤ h ∧
    h < min ((shard r).headStart + (shard r).partNHashCols) sizes.length
  /-- The rows of an owned head are owned. -/
  bucket : ∀ r < numShards, ∀ h, (shard r).headStart ≤ h →
    h < (shard r).headStart + (shard r).partNHashCols →
    (shard r).vocabStartIdx ≤ (sizes.take h).sum ∧
      (sizes.take (h + 1)).sum ≤ (shard r).vocabEndIdx

/-- **The ranges of a sharded table partition it**, and its heads. -/
theorem Sharded.partition (hs : Sharded sizes (tp * dp)) :
    Partition sizes (tp * dp) (backend sizes tp dp) where
  first := by
    rw [backend_vocabStartIdx]
    simp [rowBound]
  consecutive r _ := by rw [backend_vocabEndIdx, backend_vocabStartIdx]
  last := by
    rw [backend_vocabEndIdx, Nat.sub_add_cancel hs.shards]
    exact rowBound_last hs
  nonempty r hr := by
    rw [backend_vocabEndIdx, backend_vocabStartIdx]
    exact rowBound_lt hs r hr
  disjoint r hr r' hr' hne id hlo hhi hin := by
    rw [backend_vocabEndIdx] at hhi hin
    exact hne (block_unique (rowBound_lt hs) hr hr' ⟨hlo, hhi⟩ hin)
  owner id h0 hid := by
    simp only [backend_vocabEndIdx, backend_vocabStartIdx]
    apply existsUnique_block (rowBound_lt hs)
    · simpa [rowBound] using h0
    · rwa [rowBound_last hs]
  head h hh := by
    have hcut := existsUnique_block (headBound_lt hs) (x := h) (by simp [headBound])
      (by rwa [headBound_last hs])
    -- the start of an owned block is not clamped
    refine (existsUnique_congr ?_).mp hcut
    intro r
    refine and_congr_right fun hr => ?_
    rw [headBound_eq hs hr]
    unfold headBound
    rw [Nat.succ_mul]
    rfl
  bucket r _ h hlo hhi := by
    rw [backend_vocabEndIdx, backend_vocabStartIdx]
    apply bucket_mem hs hlo
    rw [Nat.succ_mul]
    exact hhi

/-- A column is in one slot of one rank. -/
theorem Sharded.existsUnique_slot (hs : Sharded sizes (tp * dp)) {h : ℕ} (hh : h < sizes.length) :
    ∃! s : ℕ × ℕ, s.1 < tp * dp ∧ s.2 < (backend sizes tp dp s.1).partNHashCols ∧
      (backend sizes tp dp s.1).headStart + s.2 = h := by
  have hpos := partNHashCols_pos hs
  have hmod := Nat.div_add_mod' h (partNHashCols sizes.length (tp * dp))
  refine ⟨(h / partNHashCols sizes.length (tp * dp), h % partNHashCols sizes.length (tp * dp)),
    ⟨?_, Nat.mod_lt _ hpos, hmod⟩, ?_⟩
  · rw [Nat.div_lt_iff_lt_mul hpos]
    exact hh.trans_le (le_mul_partNHashCols _ hs.shards)
  · rintro ⟨r, c⟩ ⟨-, hc, hrc⟩
    -- division with remainder is unique
    have hrc' : c + partNHashCols sizes.length (tp * dp) * r = h := by
      rw [← hrc, Nat.add_comm, Nat.mul_comm]
      rfl
    have hdm := (Nat.div_mod_unique hpos).mpr ⟨hrc', hc⟩
    rw [hdm.1, hdm.2]

/-- Whether `__init__` raises does not depend on the rank. -/
theorem init_eq_backend {r₀ : ℕ} {b₀ : Backend} (h₀ : init sizes tp dp r₀ = .ok b₀) (r : ℕ) :
    init sizes tp dp r = .ok (backend sizes tp dp r) := by
  obtain ⟨-, -, hheads⟩ := init_ok h₀
  unfold init at h₀ ⊢
  split at h₀
  · cases h₀
  · next hsizes =>
    rw [if_neg hsizes]
    exact if_neg (not_le.mpr hheads)

/-- A slot of a lookup is a column of its token, or `-1` past the last column. -/
theorem getElem?_lookup {b : Backend} {cols staging : ℕ} {indices : List (List ℤ)} {ids : List ℤ}
    (hcols : ∀ row ∈ indices, row.length = cols) (hids : lookup b staging cols indices = .ok ids)
    {t c : ℕ} (ht : t < indices.length) (hc : c < b.partNHashCols) :
    ids[t * b.partNHashCols + c]? =
      if b.headStart + c < cols then indices[t][b.headStart + c]? else some (-1) := by
  rw [lookup_ok hids, getElem?_flatMap_localIds ht hc,
    getElem?_localIds (hcols _ (List.getElem_mem ht)) hc]

/-- **Shard agreement and partition.** Where the backend's `__init__` does not raise,
its unclamped bounds are those of `shard_range`, the ranges of the ranks partition
the table and its heads, each column of the index matrix is in one slot of one
rank, a lookup that fits the staging buffer has ids, and the row store gives zeros
in every slot that no column fills. -/
theorem engram_shards_partition (sizes : List ℤ) (tp dp : ℕ) (htp : 1 ≤ tp) (hdp : 1 ≤ dp)
    (hinit : ∃ r b, init sizes tp dp r = .ok b) :
    (∀ r < tp * dp, init sizes tp dp r = .ok (backend sizes tp dp r)) ∧
    (∀ rank dpRank,
      (shardRange sizes rank tp dp dpRank).vocabStart =
          (backend sizes tp dp (rank * dp + dpRank)).vocabStartIdx ∧
        (shardRange sizes rank tp dp dpRank).vocabEnd =
          (backend sizes tp dp (rank * dp + dpRank)).vocabEndIdx ∧
        (shardRange sizes rank tp dp dpRank).headStart =
          (backend sizes tp dp (rank * dp + dpRank)).headStart ∧
        (shardRange sizes rank tp dp dpRank).localHeads =
          ((min ((backend sizes tp dp (rank * dp + dpRank)).headStart +
              (backend sizes tp dp (rank * dp + dpRank)).partNHashCols) sizes.length : ℕ) : ℤ) -
            (backend sizes tp dp (rank * dp + dpRank)).headStart) ∧
    (dp = 1 → ∀ rank, ownedRowRange sizes rank tp =
      ((backend sizes tp dp rank).vocabStartIdx, (backend sizes tp dp rank).vocabEndIdx)) ∧
    Partition sizes (tp * dp) (backend sizes tp dp) ∧
    (∀ h < sizes.length, ∃! s : ℕ × ℕ, s.1 < tp * dp ∧
      s.2 < (backend sizes tp dp s.1).partNHashCols ∧
      (backend sizes tp dp s.1).headStart + s.2 = h) ∧
    (∀ r < tp * dp, ∀ staging indices,
      (∃ ids, lookup (backend sizes tp dp r) staging sizes.length indices = .ok ids) ↔
        indices.length * (backend sizes tp dp r).partNHashCols ≤ staging) ∧
    ∀ r < tp * dp, ∀ staging indices ids, (∀ row ∈ indices, row.length = sizes.length) →
      lookup (backend sizes tp dp r) staging sizes.length indices = .ok ids →
      ∀ (t : ℕ) (ht : t < indices.length), ∀ c < (backend sizes tp dp r).partNHashCols,
        if (backend sizes tp dp r).headStart + c < sizes.length then
          ids[t * (backend sizes tp dp r).partNHashCols + c]? =
            indices[t][(backend sizes tp dp r).headStart + c]?
        else
          ids[t * (backend sizes tp dp r).partNHashCols + c]? = some (-1) ∧
          ∀ (s : RowStore.Store) (weights scales : List (List UInt8)) (threads : ℕ)
            (w : RowStore.Work), weights.length = ids.length → scales.length = ids.length →
            RowStore.Returns (.start s ids weights scales) threads w →
            w.weights[t * (backend sizes tp dp r).partNHashCols + c]? =
                some (List.replicate RowStore.kWeightBytes 0) ∧
              w.scales[t * (backend sizes tp dp r).partNHashCols + c]? =
                some (List.replicate RowStore.kScaleBytes 0) := by
  obtain ⟨r₀, b₀, h₀⟩ := hinit
  obtain ⟨-, hpos, hheads⟩ := init_ok h₀
  have hs : Sharded sizes (tp * dp) := ⟨Nat.mul_pos htp hdp, hpos, hheads⟩
  refine ⟨?_, ?_, ?_, hs.partition, fun h hh => hs.existsUnique_slot hh,
    fun r _ _ indices => exists_lookup_ok indices, ?_⟩
  · intro r _
    exact init_eq_backend h₀ r
  · intro rank dpRank
    exact shardRange_eq sizes rank tp dp dpRank
  · rintro rfl rank
    obtain ⟨hstart, hend, -, -⟩ := shardRange_eq sizes rank tp 1 0
    rw [Nat.mul_one, Nat.add_zero] at hstart hend
    exact Prod.ext hstart hend
  · intro r _ staging indices ids hcols hids t ht c hc
    have hslot := getElem?_lookup hcols hids ht hc
    split
    · next hin => rwa [if_pos hin] at hslot
    · next hout =>
      rw [if_neg hout] at hslot
      refine ⟨hslot, ?_⟩
      intro s weights scales threads w hw hsc hret
      exact RowStore.returns_zeros hw hsc hret hslot (by decide)

/-- Five heads on two ranks: the last rank has two heads of its share of three, and
the last slot of a token there is padding. -/
theorem engram_shards_partition_five :
    init [2, 3, 5, 7, 11] 2 1 0 = .ok (backend [2, 3, 5, 7, 11] 2 1 0) ∧
      Partition [2, 3, 5, 7, 11] 2 (backend [2, 3, 5, 7, 11] 2 1) ∧
      ∃ ids, lookup (backend [2, 3, 5, 7, 11] 2 1 1) 3 5 [[1, 4, 7, 12, 20]] = .ok ids ∧
        ids[1]? = some 20 ∧ ids[2]? = some (-1) := by
  obtain ⟨-, -, -, hpart, -, hok, hslots⟩ :=
    engram_shards_partition [2, 3, 5, 7, 11] 2 1 (by decide) (by decide) ⟨0, _, rfl⟩
  obtain ⟨ids, hids⟩ := (hok 1 (by decide) 3 [[1, 4, 7, 12, 20]]).mpr (by decide)
  have hcols : ∀ row ∈ [[(1 : ℤ), 4, 7, 12, 20]], row.length = 5 := by decide
  have hslot := hslots 1 (by decide) 3 _ ids hcols hids 0 (by decide)
  refine ⟨rfl, hpart, ids, hids, ?_, ?_⟩
  · exact hslot 1 (by decide)
  · exact (hslot 2 (by decide)).1

end Dsv41Overlay.Engram
