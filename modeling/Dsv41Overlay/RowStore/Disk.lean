import Dsv41Overlay.Lib.Bytes

/-!
# The row store's files

An Engram table is a file with the weights of its rows (256 bytes each) from one
offset and their scales (8 bytes each) from another. A packed shard
(`scripts/pack_engram.py`) holds the rows `lo ≤ id < hi` of a table as records
of weight and scale, after a header page that names the range.

A `pread` may fail or give fewer bytes than asked, so a read is modelled with
its outcome. `readFrom_ok` is the one thing the rest of the store needs: a read
that does not abort gives the bytes of the file at that offset, whatever its
alignment to the pages.
-/

namespace Dsv41Overlay
namespace RowStore

/-- 256 B weight + 8 B scale. -/
def kRowBytes : ℕ := 264
def kWeightBytes : ℕ := 256
def kScaleBytes : ℕ := 8
def kPage : ℕ := 4096
/-- Keeps row 0 page-aligned. -/
def kPackedHeader : ℕ := 4096
def kPackedMagic : ℕ := 0x31344e4531565344

/-! ### Reading -/

/-- One `pread` of `requested` bytes at `offset`. The outcome is `none` for an
error other than `EINTR` (which is retried) and else how many bytes the kernel is
willing to give; it gives no more than asked and no more than there are. -/
def pread (file : List UInt8) (offset requested : ℕ) (outcome : Option ℕ) :
    Option (List UInt8) :=
  outcome.map fun got => slice file offset (min got requested)

/-- How many bytes are read from the page of an offset on. -/
def requested (delta length : ℕ) : ℕ := (delta + length + kPage - 1) / kPage * kPage

/-- `read_from`: `length` bytes at `offset`, by one read of whole pages unless the
file is in memory. -/
def readFrom (resident : Bool) (file : List UInt8) (offset length : ℕ) (outcome : Option ℕ) :
    Except String (List UInt8) :=
  -- `resident && fd == s->fd`
  if resident then .ok (slice file offset length) else
  let base := offset / kPage * kPage
  let delta := offset - base
  match pread file base (requested delta length) outcome with
  | none => .error "short or failed direct read"
  | some page =>
    if page.length < delta + length then .error "short or failed direct read"
    else .ok (slice page delta length)

/-- The bytes a read covers fit the page buffer of 8192 bytes, for a row at most. -/
theorem requested_le {offset length : ℕ} (h : length ≤ kRowBytes) :
    requested (offset - offset / kPage * kPage) length ≤ 8192 := by
  simp only [requested, kPage, kRowBytes] at *
  have hdelta : offset - offset / 4096 * 4096 < 4096 := by omega
  -- a row that starts inside a page ends in the next one at the latest
  have hpages : (offset - offset / 4096 * 4096 + length + 4096 - 1) / 4096 ≤ 2 := by omega
  omega

theorem length_pread {file page : List UInt8} {offset n : ℕ} {o : Option ℕ}
    (h : pread file offset n o = some page) :
    ∃ m, page = slice file offset m ∧ m = page.length ∧ (0 < m → offset + m ≤ file.length) := by
  obtain ⟨got, _, rfl⟩ := Option.map_eq_some_iff.mp h
  have hlen : (slice file offset (min got n)).length = min (min got n) (file.length - offset) := by
    rw [slice, List.length_take, List.length_drop]
  -- the window that was given is the window of its own length
  refine ⟨_, ?_, hlen.symm, by omega⟩
  rw [slice, slice, List.take_eq_take_iff, List.length_drop]
  omega

/-- **A read that succeeds is exact**, and a read from disk stays inside the file. -/
theorem readFrom_ok {resident : Bool} {file out : List UInt8} {offset length : ℕ}
    {o : Option ℕ} (h : readFrom resident file offset length o = .ok out) :
    out = slice file offset length
      ∧ (resident = false → 0 < length → offset + length ≤ file.length) := by
  unfold readFrom at h
  -- the resident file is sliced, the other one is read by pages
  split at h
  · rename_i hres
    cases h
    exact ⟨rfl, fun hdisk => by rw [hdisk] at hres; exact nomatch hres⟩
  · simp only at h
    split at h
    · exact nomatch h
    · rename_i page hpage
      split at h
      · exact nomatch h
      · rename_i hlong
        cases h
        -- `m` bytes were given, from the start of the page on
        obtain ⟨m, hm, hlen, hin⟩ := length_pread hpage
        have hbase : offset / kPage * kPage ≤ offset := Nat.div_mul_le_self ..
        constructor
        · rw [hm, slice_slice _ _ (by omega), Nat.add_sub_cancel' hbase]
        · intro _ hpos
          have hend := hin (by omega)
          omega

/-- A read of whole pages that is complete gives the bytes. -/
theorem readFrom_complete {file : List UInt8} {offset length got : ℕ}
    (hin : offset + length ≤ file.length)
    (hgot : requested (offset - offset / kPage * kPage) length ≤ got) :
    readFrom false file offset length (some got) = .ok (slice file offset length) := by
  have hbase : offset / kPage * kPage ≤ offset := Nat.div_mul_le_self ..
  have hreq : offset - offset / kPage * kPage + length
      ≤ requested (offset - offset / kPage * kPage) length := by
    simp only [requested, kPage]
    omega
  have hlen : offset - offset / kPage * kPage + length
      ≤ (slice file (offset / kPage * kPage)
        (requested (offset - offset / kPage * kPage) length)).length := by
    rw [slice, List.length_take, List.length_drop]
    omega
  simp only [readFrom, pread, Option.map_some, Nat.min_eq_right hgot, Bool.false_eq_true, if_false]
  rw [if_neg (Nat.not_lt.mpr hlen), slice_slice _ _ hreq, Nat.add_sub_cancel' hbase]

/-! ### Tables -/

/-- An Engram table of the checkpoint: the file and where its tensors start. -/
structure Table where
  file : List UInt8
  rows : ℕ
  weightOffset : ℕ
  scaleOffset : ℕ
deriving Repr, DecidableEq

namespace Table

/-- What the checkpoint says about `id`: its weight. -/
def weight (t : Table) (id : ℕ) : List UInt8 :=
  slice t.file (t.weightOffset + id * kWeightBytes) kWeightBytes

/-- What the checkpoint says about `id`: its scale. -/
def scale (t : Table) (id : ℕ) : List UInt8 :=
  slice t.file (t.scaleOffset + id * kScaleBytes) kScaleBytes

/-- Weight and scale, adjacent. -/
def row (t : Table) (id : ℕ) : List UInt8 := t.weight id ++ t.scale id

/-- The tensors lie inside the file (`row_store_open`'s test of the extent). -/
def Extent (t : Table) : Prop :=
  ¬ (t.file.length < t.weightOffset ∨ t.file.length < t.scaleOffset
    ∨ (t.file.length - t.weightOffset) / 256 < t.rows
    ∨ (t.file.length - t.scaleOffset) / 8 < t.rows)

instance (t : Table) : Decidable t.Extent := inferInstanceAs (Decidable (¬ _))

variable {t : Table} {id : ℕ}

theorem length_weight (ht : t.Extent) (hid : id < t.rows) :
    (t.weight id).length = kWeightBytes := by
  refine length_slice ?_
  simp only [Extent, kWeightBytes] at *
  omega

theorem length_scale (ht : t.Extent) (hid : id < t.rows) : (t.scale id).length = kScaleBytes := by
  refine length_slice ?_
  simp only [Extent, kScaleBytes] at *
  omega

theorem length_row (ht : t.Extent) (hid : id < t.rows) : (t.row id).length = kRowBytes := by
  rw [row, List.length_append, length_weight ht hid, length_scale ht hid]
  rfl

end Table

/-! ### Packed shards -/

/-- The header page that `pack_layer` writes: six little-endian words, then zeros. -/
def packedHeader (layer lo hi rows : ℕ) : List UInt8 :=
  [kPackedMagic, layer, lo, hi, rows, kRowBytes].flatMap (toLE 8)
    ++ List.replicate (kPackedHeader - 48) 0

/-- A complete packed shard of the rows `lo ≤ id < hi`: the header and a record
for each row. -/
def packedShard (t : Table) (layer lo hi : ℕ) : List UInt8 :=
  packedHeader layer lo hi t.rows ++ (List.range' lo (hi - lo)).flatMap t.row

/-- The word number `k` of a header. -/
def headerWord (header : List UInt8) (k : ℕ) : ℕ := ofLE (slice header (k * 8) 8)

/-- `shard` was written by `pack_layer` for rows of the table: it packs a range
that is not empty, and its header words are 64-bit. -/
def IsShard (t : Table) (shard : List UInt8) : Prop :=
  ∃ layer lo hi, lo < hi ∧ hi ≤ t.rows ∧ layer < 2 ^ 64 ∧ t.rows < 2 ^ 64
    ∧ shard = packedShard t layer lo hi

theorem length_packedHeader (layer lo hi rows : ℕ) :
    (packedHeader layer lo hi rows).length = kPackedHeader := by
  rw [packedHeader, List.length_append, length_flatMap_of_size fun b _ => length_toLE 8 b,
    List.length_replicate]
  rfl

/-- Reading the header's words back. -/
theorem headerWord_packedHeader {layer lo hi rows k w : ℕ} (rest : List UInt8)
    (hk : [kPackedMagic, layer, lo, hi, rows, kRowBytes][k]? = some w) (hw : w < 2 ^ 64) :
    headerWord (packedHeader layer lo hi rows ++ rest) k = w := by
  have hsize : ∀ b ∈ [kPackedMagic, layer, lo, hi, rows, kRowBytes], (toLE 8 b).length = 8 :=
    fun b _ => length_toLE 8 b
  have hlen := length_flatMap_of_size hsize
  obtain ⟨hlt, _⟩ := List.getElem?_eq_some_iff.mp hk
  have hwords : k * 8 + 8
      ≤ ([kPackedMagic, layer, lo, hi, rows, kRowBytes].flatMap (toLE 8)).length := by
    rw [hlen]
    omega
  -- the words come before the zeros and before the records
  rw [headerWord, packedHeader, List.append_assoc, slice_append_left hwords,
    slice_flatMap hsize hk, ofLE_toLE hw]

/-- The records of a range are of one size. -/
theorem length_record {t : Table} (ht : t.Extent) {lo hi : ℕ} (hhi : hi ≤ t.rows) :
    ∀ id ∈ List.range' lo (hi - lo), (t.row id).length = kRowBytes := by
  intro id hid
  obtain ⟨_, hid⟩ := List.mem_range'_1.mp hid
  exact Table.length_row ht (by omega)

/-- **Every row of the range has its record.** -/
theorem slice_packedShard {t : Table} (ht : t.Extent) (layer : ℕ) {lo hi id : ℕ}
    (hhi : hi ≤ t.rows) (hlo : lo ≤ id) (hid : id < hi) :
    slice (packedShard t layer lo hi) (kPackedHeader + (id - lo) * kRowBytes) kRowBytes
      = t.row id := by
  -- record number `id - lo` is that of `id`
  have hrec : (List.range' lo (hi - lo))[id - lo]? = some id := by
    rw [List.getElem?_range' (by omega)]
    congr 1
    omega
  rw [packedShard, ← length_packedHeader layer lo hi t.rows, slice_append_right,
    slice_flatMap (length_record ht hhi) hrec]

theorem length_packedShard {t : Table} (layer lo : ℕ) {hi : ℕ} (ht : t.Extent)
    (hhi : hi ≤ t.rows) :
    (packedShard t layer lo hi).length = kPackedHeader + (hi - lo) * kRowBytes := by
  rw [packedShard, List.length_append, length_packedHeader,
    length_flatMap_of_size (length_record ht hhi), List.length_range']

end RowStore
end Dsv41Overlay
