import Mathlib.Algebra.Group.Nat.Defs
import Mathlib.Data.List.Basic
import Mathlib.Data.List.Range

/-!
# Byte strings by offset

Windows of a list by offset and length, overwriting a window, and little-endian
numbers of a fixed width. `slice_flatMap` reads a record out of a list of records
of one size; `ofLE_toLE` reads a number back.
-/

namespace Dsv41Overlay

variable {α β : Type*}

/-- The `n` elements from offset `o`. -/
def slice (l : List α) (o n : ℕ) : List α := (l.drop o).take n

/-- `l` with `data` written over it from offset `o`. -/
def overwrite (l : List α) (o : ℕ) (data : List α) : List α :=
  l.take o ++ data ++ l.drop (o + data.length)

/-! ### Windows -/

theorem length_slice {l : List α} {o n : ℕ} (h : o + n ≤ l.length) : (slice l o n).length = n := by
  rw [slice, List.length_take, List.length_drop]
  omega

theorem getElem?_slice (l : List α) (o : ℕ) {n i : ℕ} (h : i < n) :
    (slice l o n)[i]? = l[o + i]? := by
  rw [slice, List.getElem?_take_of_lt h, List.getElem?_drop]

theorem slice_map (f : α → β) (l : List α) (o n : ℕ) :
    slice (l.map f) o n = (slice l o n).map f := by
  rw [slice, slice, ← List.map_drop, List.map_take]

/-- A window of a window. -/
theorem slice_slice (l : List α) (o : ℕ) {n o' n' : ℕ} (h : o' + n' ≤ n) :
    slice (slice l o n) o' n' = slice l (o + o') n' := by
  rw [slice, slice, slice, List.drop_take, List.take_take, List.drop_drop,
    Nat.min_eq_left (by omega)]

theorem slice_append_left {l m : List α} {o n : ℕ} (h : o + n ≤ l.length) :
    slice (l ++ m) o n = slice l o n := by
  rw [slice, slice, List.drop_append_of_le_length (by omega),
    List.take_append_of_le_length (by rw [List.length_drop]; omega)]

theorem slice_append_right (l m : List α) (o n : ℕ) :
    slice (l ++ m) (l.length + o) n = slice m o n := by
  rw [slice, slice, List.drop_append, List.drop_eq_nil_of_le (Nat.le_add_right ..),
    List.nil_append, Nat.add_sub_cancel_left]

theorem slice_all {l : List α} {n : ℕ} (h : l.length = n) : slice l 0 n = l := by
  rw [slice, List.drop_zero, ← h, List.take_length]

/-- The first window of a list that starts with it. -/
theorem slice_append_self {l m : List α} {n : ℕ} (h : l.length = n) : slice (l ++ m) 0 n = l := by
  rw [slice_append_left (by omega), slice_all h]

/-- **Record by record**: in a list of records of size `size`, the record of the
`j`-th item is at `j * size`. -/
theorem slice_flatMap {record : β → List α} {size : ℕ} {items : List β}
    (hsize : ∀ b ∈ items, (record b).length = size) {j : ℕ} {b : β} (hj : items[j]? = some b) :
    slice (items.flatMap record) (j * size) size = record b := by
  induction items generalizing j with
  | nil => exact nomatch hj
  | cons x items ih =>
    have hx : (record x).length = size := hsize x List.mem_cons_self
    rw [List.flatMap_cons]
    cases j with
    | zero =>
      obtain rfl : x = b := Option.some.inj hj
      rw [Nat.zero_mul, slice_append_self hx]
    | succ j =>
      have hoff : (j + 1) * size = (record x).length + j * size := by
        rw [hx, Nat.succ_mul, Nat.add_comm]
      rw [hoff, slice_append_right]
      exact ih (fun b hb => hsize b (List.mem_cons_of_mem _ hb)) hj

theorem length_flatMap_of_size {record : β → List α} {size : ℕ} {items : List β}
    (hsize : ∀ b ∈ items, (record b).length = size) :
    (items.flatMap record).length = items.length * size := by
  induction items with
  | nil => simp
  | cons x items ih =>
    rw [List.flatMap_cons, List.length_append, hsize x List.mem_cons_self,
      ih fun b hb => hsize b (List.mem_cons_of_mem _ hb), List.length_cons, Nat.succ_mul,
      Nat.add_comm]

/-! ### Overwriting -/

theorem length_overwrite {l data : List α} {o : ℕ} (h : o + data.length ≤ l.length) :
    (overwrite l o data).length = l.length := by
  simp only [overwrite, List.length_append, List.length_take, List.length_drop]
  omega

/-- The overwritten window. -/
theorem getElem?_overwrite_inside {l data : List α} {o i : ℕ} (h : o + data.length ≤ l.length)
    (hlo : o ≤ i) (hhi : i < o + data.length) : (overwrite l o data)[i]? = data[i - o]? := by
  have hlen : (l.take o).length = o := by rw [List.length_take]; omega
  rw [overwrite, List.append_assoc, List.getElem?_append_right (by omega), hlen,
    List.getElem?_append_left (by omega)]

/-- What stands before the window stays. -/
theorem getElem?_overwrite_before {l data : List α} {o i : ℕ} (h : o ≤ l.length) (hi : i < o) :
    (overwrite l o data)[i]? = l[i]? := by
  have hlen : (l.take o).length = o := by rw [List.length_take]; omega
  rw [overwrite, List.append_assoc, List.getElem?_append_left (by omega),
    List.getElem?_take_of_lt hi]

/-! ### Little-endian numbers -/

/-- The `w` low bytes of `n`, the lowest first. -/
def toLE : ℕ → ℕ → List UInt8
  | 0, _ => []
  | w + 1, n => UInt8.ofNat n :: toLE w (n / 256)

/-- The number with the given bytes. -/
def ofLE : List UInt8 → ℕ
  | [] => 0
  | b :: bs => b.toNat + 256 * ofLE bs

@[simp] theorem length_toLE (w n : ℕ) : (toLE w n).length = w := by
  induction w generalizing n with
  | zero => rfl
  | succ w ih => rw [toLE, List.length_cons, ih]

/-- **Reading a number back.** -/
theorem ofLE_toLE {w n : ℕ} (h : n < 256 ^ w) : ofLE (toLE w n) = n := by
  induction w generalizing n with
  | zero => exact (Nat.lt_one_iff.mp h).symm
  | succ w ih =>
    have hdiv : n / 256 < 256 ^ w := by
      rw [Nat.div_lt_iff_lt_mul (by decide), ← Nat.pow_succ]
      exact h
    calc ofLE (toLE (w + 1) n) = n % 256 + 256 * (n / 256) := by
          rw [toLE, ofLE, ih hdiv, UInt8.toNat_ofNat']
      _ = n := Nat.mod_add_div n 256

end Dsv41Overlay
