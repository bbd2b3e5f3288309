import Mathlib.Algebra.BigOperators.Group.List.Basic
import Mathlib.Algebra.GroupWithZero.Nat
import Mathlib.Data.List.Range

/-!
# Arrays laid out segment after segment

A batch is stored flat: one array holds the rows of all requests, and a second
array of prefix sums says where each request's rows start. `prefixSum f i` is
the start of segment `i` when segment `k` has `f k` entries, and
`getElem?_flatMap_range` reads entry `t` of segment `i` at `prefixSum f i + t`.
-/

namespace Dsv41Overlay

variable {α : Type*}

/-- Where segment `i` starts when segment `k` has `f k` entries. -/
def prefixSum (f : ℕ → ℕ) (i : ℕ) : ℕ := ((List.range i).map f).sum

@[simp] theorem prefixSum_zero (f : ℕ → ℕ) : prefixSum f 0 = 0 := rfl

@[simp] theorem prefixSum_succ (f : ℕ → ℕ) (i : ℕ) :
    prefixSum f (i + 1) = prefixSum f i + f i := by
  simp [prefixSum, List.range_succ]

theorem prefixSum_le_prefixSum (f : ℕ → ℕ) {i j : ℕ} (h : i ≤ j) :
    prefixSum f i ≤ prefixSum f j := by
  induction h with
  | refl => exact le_rfl
  | step _ ih => rw [prefixSum_succ]; omega

/-- The end of a segment lies at or before the start of every later one. -/
theorem prefixSum_add_le (f : ℕ → ℕ) {i j : ℕ} (h : i < j) :
    prefixSum f i + f i ≤ prefixSum f j := by
  rw [← prefixSum_succ]
  exact prefixSum_le_prefixSum f h

/-- Prefix sums only depend on the segments before `i`. -/
theorem prefixSum_congr {f g : ℕ → ℕ} {i : ℕ} (h : ∀ k < i, f k = g k) :
    prefixSum f i = prefixSum g i := by
  induction i with
  | zero => rfl
  | succ i ih =>
    rw [prefixSum_succ, prefixSum_succ, ih fun k hk => h k (by omega), h i (by omega)]

theorem length_flatMap_range (f : ℕ → List α) (n : ℕ) :
    ((List.range n).flatMap f).length = prefixSum (fun k => (f k).length) n := by
  rw [List.length_flatMap]
  rfl

/-- Entry `t` of segment `i` sits at `prefixSum i + t` of the flat array. -/
theorem getElem?_flatMap_range (f : ℕ → List α) {n i t : ℕ} (hi : i < n)
    (ht : t < (f i).length) :
    ((List.range n).flatMap f)[prefixSum (fun k => (f k).length) i + t]? = (f i)[t]? := by
  induction n with
  | zero => omega
  | succ n ih =>
    rw [List.range_succ, List.flatMap_append]
    have hlen := length_flatMap_range f n
    -- the segment is an earlier one, or the last
    rcases Nat.lt_succ_iff_lt_or_eq.mp hi with hlt | rfl
    · have hend := prefixSum_add_le (fun k => (f k).length) hlt
      rw [List.getElem?_append_left (by omega)]
      exact ih hlt
    · rw [List.getElem?_append_right (by omega), hlen]
      simp

/-- Every index of the flat array belongs to some segment. -/
theorem exists_segment (f : ℕ → ℕ) {n j : ℕ} (hj : j < prefixSum f n) :
    ∃ i < n, ∃ t < f i, j = prefixSum f i + t := by
  induction n with
  | zero => simp at hj
  | succ n ih =>
    by_cases h : j < prefixSum f n
    · obtain ⟨i, hi, t, ht, rfl⟩ := ih h
      exact ⟨i, by omega, t, ht, rfl⟩
    · rw [prefixSum_succ] at hj
      exact ⟨n, by omega, j - prefixSum f n, by omega, by omega⟩

end Dsv41Overlay
