import Dsv41Overlay.Lib.Buckets
import Mathlib.Logic.Function.Basic

/-!
# Kernel launches over a row buffer

A launch spreads rows over blocks: a block owns a tile of rows
(`tileRows_eq_range`), or walks the rows from its own index in steps of the grid
(`flatMap_stride_perm`). Either way each row is visited once. Blocks run in any
order; as long as each row has one writer, the buffer they leave does not depend
on it (`scatterWrite_of_mem`).
-/

namespace Dsv41Overlay

variable {α : Type*}

/-! ### Tiles -/

/-- The rows of tile `t` of `n` rows, `T` rows to a tile. -/
def tileRows (T n t : ℕ) : List ℕ := (List.range (min T (n - t * T))).map (t * T + ·)

theorem slice_range (n o k : ℕ) :
    slice (List.range n) o k = (List.range (min k (n - o))).map (o + ·) := by
  have hdrop : (List.range n).drop o = (List.range (n - o)).map (o + ·) := by
    rcases Nat.le_total o n with h | h
    · obtain ⟨m, rfl⟩ := Nat.exists_eq_add_of_le h
      rw [List.range_add, Nat.add_sub_cancel_left, List.drop_left' List.length_range]
    · rw [List.drop_eq_nil_of_le (by simpa using h), Nat.sub_eq_zero_of_le h]
      rfl
  rw [slice, hdrop, ← List.map_take, List.take_range]

/-- **Tiles cover the rows**, each row once and in order. -/
theorem tileRows_eq_range {T n k : ℕ} (h : n ≤ k * T) :
    (List.range k).flatMap (tileRows T n) = List.range n := by
  have htile : ∀ t ∈ List.range k, tileRows T n t = slice (List.range n) (t * T) T :=
    fun t _ => (slice_range n (t * T) T).symm
  rw [List.flatMap_congr htile, flatMap_slice_tiles, List.take_of_length_le (by simpa using h)]

/-- As many tiles as it takes to hold the rows. -/
theorem le_ceilDiv_mul {T : ℕ} (hT : 0 < T) (n : ℕ) : n ≤ (n + (T - 1)) / T * T := by
  have hdiv := Nat.div_add_mod (n + (T - 1)) T
  have hmod := Nat.mod_lt (n + (T - 1)) hT
  have hcomm : (n + (T - 1)) / T * T = T * ((n + (T - 1)) / T) := Nat.mul_comm _ _
  omega

/-- A block walks its rows in sub-blocks of `B`, from row `base` on. -/
theorem flatMap_blocks {B n k : ℕ} (h : n ≤ k * B) (base : ℕ) :
    ((List.range k).flatMap fun b => (List.range (min B (n - b * B))).map (base + b * B + ·)) =
      (List.range n).map (base + ·) := by
  rw [← tileRows_eq_range h, List.map_flatMap]
  refine List.flatMap_congr fun b _ => ?_
  rw [tileRows, List.map_map]
  exact List.map_congr_left fun row _ => Nat.add_assoc base (b * B) row

/-! ### Strides -/

/-- The rows `start`, `start + step`, … below `n`. -/
def stride (start step n : ℕ) : List ℕ :=
  (List.range n).filter fun row => decide (start ≤ row) && decide ((row - start) % step = 0)

/-- **Strided blocks cover the rows**, each row once. -/
theorem flatMap_stride_perm {G : ℕ} (hG : 0 < G) (n : ℕ) :
    ((List.range G).flatMap fun b => stride b G n).Perm (List.range n) := by
  have hfib : ∀ b ∈ List.range G, stride b G n = (List.range n).filter (· % G = b) := by
    intro b hb
    have hb := List.mem_range.mp hb
    refine List.filter_congr fun row _ => ?_
    rw [← Bool.decide_and, decide_eq_decide]
    constructor
    · rintro ⟨hle, hmod⟩
      obtain ⟨q, hq⟩ := Nat.dvd_of_mod_eq_zero hmod
      have hrow : row = b + G * q := by omega
      rw [hrow, Nat.add_mul_mod_self_left, Nat.mod_eq_of_lt hb]
    · rintro rfl
      have hdiv := Nat.div_add_mod row G
      refine ⟨Nat.mod_le row G, ?_⟩
      have hsub : row - row % G = G * (row / G) := by omega
      rw [hsub, Nat.mul_mod_right]
  rw [List.flatMap_congr hfib]
  exact flatMap_filter_perm (· % G) List.nodup_range
    fun row _ => List.mem_range.mpr (Nat.mod_lt row hG)

/-! ### One writer for each row -/

/-- `buf` after the given writes, in the order they land. -/
def scatterWrite (buf : ℕ → α) (writes : List (ℕ × α)) : ℕ → α :=
  writes.foldl (fun b w => Function.update b w.1 w.2) buf

theorem scatterWrite_concat (buf : ℕ → α) (writes : List (ℕ × α)) (i : ℕ) (v : α) :
    scatterWrite buf (writes ++ [(i, v)]) = Function.update (scatterWrite buf writes) i v := by
  rw [scatterWrite, List.foldl_append]
  rfl

theorem scatterWrite_of_notMem {buf : ℕ → α} {writes : List (ℕ × α)} {i : ℕ}
    (h : i ∉ writes.map Prod.fst) : scatterWrite buf writes i = buf i := by
  induction writes generalizing buf with
  | nil => rfl
  | cons w writes ih =>
    rw [List.map_cons, List.mem_cons, not_or] at h
    calc scatterWrite buf (w :: writes) i
        = scatterWrite (Function.update buf w.1 w.2) writes i := rfl
      _ = Function.update buf w.1 w.2 i := ih h.2
      _ = buf i := Function.update_of_ne h.1 _ _

/-- **The row holds what its one writer wrote.** -/
theorem scatterWrite_of_mem {buf : ℕ → α} {writes : List (ℕ × α)}
    (hnd : (writes.map Prod.fst).Nodup) {i : ℕ} {v : α} (h : (i, v) ∈ writes) :
    scatterWrite buf writes i = v := by
  induction writes generalizing buf with
  | nil => exact absurd h List.not_mem_nil
  | cons w writes ih =>
    rw [List.map_cons, List.nodup_cons] at hnd
    rcases List.mem_cons.mp h with rfl | h
    · calc scatterWrite buf ((i, v) :: writes) i
          = scatterWrite (Function.update buf i v) writes i := rfl
        _ = Function.update buf i v i := scatterWrite_of_notMem hnd.1
        _ = v := Function.update_self i v buf
    · exact ih hnd.2 h

/-- The same for a list of tasks, each of which computes the row it writes. -/
theorem scatterWrite_tasks {β : Type*} {buf : ℕ → α} {tasks : List (ℕ × β)}
    (hnd : (tasks.map Prod.fst).Nodup) (f : ℕ × β → Option α) {w : ℕ × β} (hw : w ∈ tasks)
    {v : α} (hf : f w = some v) :
    scatterWrite buf (tasks.filterMap fun w => (f w).map (w.1, ·)) w.1 = v := by
  have hkeys : ((tasks.filterMap fun w => (f w).map (w.1, ·)).map Prod.fst).Sublist
      (tasks.map Prod.fst) := by
    clear hnd hw
    induction tasks with
    | nil => exact List.Sublist.slnil
    | cons x tasks ih =>
      cases hx : f x with
      | none => simpa [hx] using ih.cons x.1
      | some y => simpa [hx] using ih.cons_cons x.1
  refine scatterWrite_of_mem (hnd.sublist hkeys) (List.mem_filterMap.mpr ⟨w, hw, ?_⟩)
  rw [hf]
  rfl

end Dsv41Overlay
