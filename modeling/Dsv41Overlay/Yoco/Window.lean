import Mathlib.Data.List.GetD
import Mathlib.Data.Int.Order.Basic
import Mathlib.Order.Lattice

/-!
# Sliding-window index rows and their clamp

The image's kernel writes, for each row of a step, the cache slots of the
positions the row may attend to: entry `j` of the row is the slot of position
`start + j`, then `-1`. `clampSwaRow` is one row of `clamp_swa_rows`, which
raises the window start of such a row in place.

`slotRow slot width lo pos` is the row holding the slots of `lo .. pos`,
left-aligned, for any integers; `windowRow` is its case for positions that are
counts. Both functions stay inside this family: the kernel writes the window of
the row's position (`kernelSwaRow_valid`), and the clamp only moves its lower
end (`clampSwaRow_slotRow`), so that a bound that is not above the start, or a
second clamp whose bound is not higher, changes nothing
(`clamp_raises_window_start`).
-/

namespace Dsv41Overlay
namespace Yoco

/-- One request's block table: `table` maps a block index of the request to a
physical block. -/
structure BlockTable where
  table : ℕ → ℕ
  blockSize : ℕ

/-- The slot of position `p`. -/
def BlockTable.slot (t : BlockTable) (p : ℕ) : ℤ :=
  ((t.table (p / t.blockSize) * t.blockSize + p % t.blockSize : ℕ) : ℤ)

theorem BlockTable.slot_nonneg (t : BlockTable) (p : ℕ) : 0 ≤ t.slot p :=
  Int.natCast_nonneg _

/-- What the kernel writes for one row: `width` slots and how many are valid. -/
structure SwaRow where
  indices : List ℤ
  len : ℕ
deriving Repr, DecidableEq

/-- The slots the row attends to. -/
def SwaRow.visible (r : SwaRow) : List ℤ := r.indices.take r.len

/-- `_compute_swa_indices_and_lens_kernel` (causal, text only) for one token. -/
def kernelSwaRow (slot : ℕ → ℤ) (window width queryStart queryEnd seqLen tokenIdx : ℕ)
    (isValid : Bool) : SwaRow :=
  if isValid then
    -- the computed tokens, recovered from the sequence length
    let prefixLen := seqLen - (queryEnd - queryStart)
    let pos := prefixLen + tokenIdx - queryStart
    let startPos := pos - (window - 1)
    let swaLen := pos + 1 - startPos
    { indices :=
        (List.range width).map fun off => if off < swaLen then slot (startPos + off) else -1
      len := swaLen }
  else { indices := List.replicate width (-1), len := 0 }

/-- One row of `clamp_swa_rows`: the entries are shifted left by
`max(0, lower - start)`, clipped to the row's length. -/
def clampSwaRow (row : SwaRow) (pos lower : ℤ) : SwaRow :=
  let width := row.indices.length
  -- the position of the first entry, from the row's position and length
  let start := pos + 1 - row.len
  let shift := (min (max (lower - start) 0) row.len).toNat
  let newLen := row.len - shift
  { indices := (List.range width).map fun j =>
      if j < newLen then row.indices.getD (min (j + shift) (width - 1)) (-1) else -1
    len := newLen }

/-- `clamp_swa_rows`: every row with its own position and lower bound. -/
def clampSwaRows {R : ℕ} (rows : Fin R → SwaRow) (pos lower : Fin R → ℤ) : Fin R → SwaRow :=
  fun r => clampSwaRow (rows r) (pos r) (lower r)

/-- The row holding the slots of the positions `lo .. pos`, left-aligned and
followed by `-1`. -/
def slotRow (slot : ℤ → ℤ) (width : ℕ) (lo pos : ℤ) : SwaRow where
  indices := (List.range width).map fun j : ℕ =>
    if (j : ℤ) < pos + 1 - lo then slot (lo + j) else -1
  len := (pos + 1 - lo).toNat

/-- The row of positions that are counts, as the kernel writes it. -/
def windowRow (slot : ℕ → ℤ) (width lo pos : ℕ) : SwaRow where
  indices := (List.range width).map fun j => if j < pos + 1 - lo then slot (lo + j) else -1
  len := pos + 1 - lo

section SlotRow

variable {slot : ℤ → ℤ} {width : ℕ} {lo pos lower : ℤ}

theorem slotRow_getD {j : ℕ} (hj : j < width) :
    (slotRow slot width lo pos).indices.getD j (-1)
      = if (j : ℤ) < pos + 1 - lo then slot (lo + j) else -1 := by
  simp [slotRow, List.getD_eq_getElem?_getD, hj]

@[simp] theorem slotRow_len : (slotRow slot width lo pos).len = (pos + 1 - lo).toNat := rfl

@[simp] theorem slotRow_indices_length : (slotRow slot width lo pos).indices.length = width := by
  simp [slotRow]

/-- Past the position there is nothing: the row is empty, wherever its window would start. -/
theorem slotRow_of_lt (h : pos < lo) :
    slotRow slot width lo pos = ⟨List.replicate width (-1), 0⟩ := by
  have hnone : ∀ j : ℕ, ¬ (j : ℤ) < pos + 1 - lo := by
    intro j
    omega
  have hlen : (pos + 1 - lo).toNat = 0 := by omega
  simp [slotRow, hnone, hlen, List.map_const']

/-- **The clamp on one row.** -/
theorem clampSwaRow_slotRow (hlo : lo ≤ pos + 1) (hfit : (pos + 1 - lo).toNat ≤ width) :
    clampSwaRow (slotRow slot width lo pos) pos lower
      = slotRow slot width (max lo lower) pos := by
  -- how far the bound lies inside the row, and what is left of the row
  have hshift : (min (max (lower - (pos + 1 - ((pos + 1 - lo).toNat : ℤ))) 0)
      ((pos + 1 - lo).toNat : ℤ)).toNat = min (max lo lower - lo).toNat (pos + 1 - lo).toNat := by
    omega
  have hlen : (pos + 1 - lo).toNat - min (max lo lower - lo).toNat (pos + 1 - lo).toNat
      = (pos + 1 - max lo lower).toNat := by
    omega
  unfold clampSwaRow
  simp only [slotRow_len, slotRow_indices_length, hshift, hlen]
  simp only [slotRow, SwaRow.mk.injEq, and_true]
  apply List.map_congr_left
  intro j hj
  rw [List.mem_range] at hj
  by_cases hjn : j < (pos + 1 - max lo lower).toNat
  · -- entry `j` of the clamped row is an entry of the row: the index limit does not bite
    have hidx : min (j + min (max lo lower - lo).toNat (pos + 1 - lo).toNat) (width - 1)
        = j + (max lo lower - lo).toNat := by
      omega
    have hget := @slotRow_getD slot width lo pos _
      (show j + (max lo lower - lo).toNat < width by omega)
    have hpos : lo + ((j + (max lo lower - lo).toNat : ℕ) : ℤ) = max lo lower + (j : ℤ) := by
      omega
    rw [if_pos hjn, if_pos (by omega), hidx]
    unfold slotRow at hget
    rw [hget, if_pos (by omega), hpos]
  · rw [if_neg hjn, if_neg (by omega)]

/-- The clamp leaves a row without valid entries empty. -/
theorem clampSwaRow_empty (pos lower : ℤ) :
    clampSwaRow ⟨List.replicate width (-1), 0⟩ pos lower = ⟨List.replicate width (-1), 0⟩ := by
  simp [clampSwaRow, List.map_const']

/-- A bound at or below the start changes nothing, past the position either. -/
theorem clampSwaRow_slotRow_of_le (hfit : (pos + 1 - lo).toNat ≤ width) (h : lower ≤ lo) :
    clampSwaRow (slotRow slot width lo pos) pos lower = slotRow slot width lo pos := by
  by_cases hlo : lo ≤ pos + 1
  · rw [clampSwaRow_slotRow hlo hfit, max_eq_left h]
  · rw [slotRow_of_lt (by omega), clampSwaRow_empty]

end SlotRow

section WindowRow

variable {slot : ℕ → ℤ} {width lo pos : ℕ}

@[simp] theorem windowRow_len : (windowRow slot width lo pos).len = pos + 1 - lo := rfl

@[simp] theorem windowRow_indices_length :
    (windowRow slot width lo pos).indices.length = width := by
  simp [windowRow]

/-- The visible slots of a window row that fits are those of `lo .. pos`. -/
theorem windowRow_visible (h : pos + 1 - lo ≤ width) :
    (windowRow slot width lo pos).visible = (List.range' lo (pos + 1 - lo)).map slot := by
  unfold SwaRow.visible windowRow
  dsimp only
  -- the first entries of the row are its valid ones
  rw [← List.map_take, List.take_range, Nat.min_eq_left h, List.range'_eq_map_range, List.map_map]
  refine List.map_congr_left fun j hj => ?_
  rw [if_pos (List.mem_range.mp hj)]
  rfl

/-- A window whose lower end lies beyond its position is the empty row. -/
theorem windowRow_of_lt (h : pos < lo) :
    windowRow slot width lo pos = ⟨List.replicate width (-1), 0⟩ := by
  have h0 : pos + 1 - lo = 0 := by omega
  simp [windowRow, h0, List.map_const']

/-- A window row is the row of the same positions as integers. -/
theorem windowRow_eq_slotRow :
    windowRow slot width lo pos = slotRow (fun p => slot p.toNat) width lo pos := by
  unfold windowRow slotRow
  rw [SwaRow.mk.injEq]
  constructor
  · apply List.map_congr_left
    intro j _
    have hiff : (j : ℤ) < (pos : ℤ) + 1 - lo ↔ j < pos + 1 - lo := by omega
    have hpos : ((lo : ℤ) + j).toNat = lo + j := by omega
    simp only [hiff, hpos]
  · omega

/-- **The clamp on a window row.** Clamping the row of `lo .. pos` to a lower
bound gives the row of `max lo lower .. pos`, as long as the row fits. -/
theorem clampSwaRow_windowRow {lower : ℕ} (hlo : lo ≤ pos + 1) (hfit : pos + 1 - lo ≤ width) :
    clampSwaRow (windowRow slot width lo pos) pos lower
      = windowRow slot width (max lo lower) pos := by
  have hmax : ((max lo lower : ℕ) : ℤ) = max (lo : ℤ) lower := by omega
  rw [windowRow_eq_slotRow, windowRow_eq_slotRow, clampSwaRow_slotRow (by omega) (by omega), hmax]

end WindowRow

section Kernel

variable {slot : ℕ → ℤ} {window width queryStart queryEnd seqLen tokenIdx : ℕ}

/-- The position the kernel recovers for a token of a request. -/
def kernelPos (queryStart queryEnd seqLen tokenIdx : ℕ) : ℕ :=
  seqLen - (queryEnd - queryStart) + tokenIdx - queryStart

/-- For a valid row the kernel writes the window of the recovered position. -/
theorem kernelSwaRow_valid :
    kernelSwaRow slot window width queryStart queryEnd seqLen tokenIdx true
      = windowRow slot width (kernelPos queryStart queryEnd seqLen tokenIdx - (window - 1))
          (kernelPos queryStart queryEnd seqLen tokenIdx) := rfl

/-- For a row without a valid slot the kernel writes nothing. -/
theorem kernelSwaRow_invalid :
    kernelSwaRow slot window width queryStart queryEnd seqLen tokenIdx false
      = ⟨List.replicate width (-1), 0⟩ := rfl

end Kernel

/-! ### All rows of a step -/

/-- **`clamp_swa_rows` raises the window start and nothing else.** For every batch of rows
that hold the slots of `pos + 1 - len .. pos`: afterwards each row holds those of
`max (pos + 1 - len) lower .. pos`, and its length is their number, `0` past the position.
Empty rows stay empty, rows that start at the bound or above it are unchanged, and so is
every row under a second clamp whose bound is not higher. -/
theorem clamp_raises_window_start {R width : ℕ} (slot : Fin R → ℤ → ℤ) (pos lower : Fin R → ℤ)
    (len : Fin R → ℕ) (hlen : ∀ r, len r ≤ width) (rows : Fin R → SwaRow)
    (hrows : ∀ r, rows r = slotRow (slot r) width (pos r + 1 - len r) (pos r)) :
    (∀ r, clampSwaRows rows pos lower r
        = slotRow (slot r) width (max (pos r + 1 - len r) (lower r)) (pos r) ∧
      (pos r < lower r → (clampSwaRows rows pos lower r).len = 0) ∧
      (len r = 0 → clampSwaRows rows pos lower r = ⟨List.replicate width (-1), 0⟩) ∧
      (lower r ≤ pos r + 1 - len r → clampSwaRows rows pos lower r = rows r)) ∧
    ∀ lower' : Fin R → ℤ, (∀ r, lower' r ≤ lower r) →
      clampSwaRows (clampSwaRows rows pos lower) pos lower' = clampSwaRows rows pos lower := by
  have hfit : ∀ r, (pos r + 1 - (pos r + 1 - (len r : ℤ))).toNat ≤ width := by
    intro r
    have := hlen r
    omega
  have hclamp : ∀ r, clampSwaRows rows pos lower r
      = slotRow (slot r) width (max (pos r + 1 - len r) (lower r)) (pos r) := by
    intro r
    unfold clampSwaRows
    rw [hrows r]
    exact clampSwaRow_slotRow (by omega) (hfit r)
  constructor
  · intro r
    refine ⟨hclamp r, ?_, ?_, ?_⟩
    · intro hpast
      rw [hclamp r, slotRow_len]
      omega
    · intro hzero
      rw [hclamp r, hzero]
      exact slotRow_of_lt (by omega)
    · intro hle
      rw [hclamp r, hrows r, max_eq_left hle]
  · intro lower' hlower
    funext r
    have hsecond : clampSwaRows (clampSwaRows rows pos lower) pos lower' r
        = clampSwaRow (clampSwaRows rows pos lower r) (pos r) (lower' r) := rfl
    have hr := hfit r
    have := hlower r
    rw [hsecond, hclamp r]
    exact clampSwaRow_slotRow_of_le (by omega) (by omega)

/-- A full row and an empty one: the bound cuts the first to its last two positions. -/
theorem clamp_raises_window_start_two :
    clampSwaRows (R := 2) (fun r => if r = 0 then ⟨[13, 14, 15], 3⟩ else ⟨[-1, -1, -1], 0⟩)
        (fun r => if r = 0 then 5 else 2) (fun _ => 4) 0 = ⟨[14, 15, -1], 2⟩ := by
  have hlen : ∀ r : Fin 2, (if r = 0 then 3 else 0) ≤ 3 := by decide
  have h := (clamp_raises_window_start (fun _ p => p + 10)
    (fun r : Fin 2 => if r = 0 then 5 else 2) (fun _ => 4) (fun r => if r = 0 then 3 else 0)
    hlen (fun r => if r = 0 then ⟨[13, 14, 15], 3⟩ else ⟨[-1, -1, -1], 0⟩) (by decide)).1 0
  rw [h.1]
  decide

end Yoco
end Dsv41Overlay
