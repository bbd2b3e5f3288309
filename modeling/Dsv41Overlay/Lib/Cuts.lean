import Mathlib.Order.Lattice

/-!
# Cutting a range at increasing points

Points `b 0 < b 1 < … < b n` of a linear order cut the range from `b 0` to `b n`
into `n` blocks `b k ≤ x < b (k + 1)`. No block is empty, no two meet
(`block_unique`), and every point of the range lies in exactly one
(`existsUnique_block`).
-/

namespace Dsv41Overlay

variable {α : Type*} [LinearOrder α] {b : ℕ → α} {n : ℕ}

/-- Increasing cut points are ordered like their numbers. -/
theorem cut_le_cut (hb : ∀ k < n, b k < b (k + 1)) {i j : ℕ} (hij : i ≤ j) (hj : j ≤ n) :
    b i ≤ b j := by
  induction j with
  | zero =>
    obtain rfl : i = 0 := Nat.le_zero.mp hij
    exact le_refl _
  | succ j ih =>
    rcases Nat.lt_or_ge j i with h | h
    · obtain rfl : i = j + 1 := Nat.le_antisymm hij h
      exact le_refl _
    · exact (ih h (Nat.le_of_succ_le hj)).trans (hb j hj).le

/-- **Blocks are disjoint**: what lies in two of them lies in one. -/
theorem block_unique (hb : ∀ k < n, b k < b (k + 1)) {i j : ℕ} (hi : i < n) (hj : j < n) {x : α}
    (hx : b i ≤ x ∧ x < b (i + 1)) (hx' : b j ≤ x ∧ x < b (j + 1)) : i = j := by
  -- a block ends before a later one starts
  have hdisj : ∀ {i j : ℕ}, i < j → j < n → x < b (i + 1) → ¬ b j ≤ x := by
    intro i j hij hj hlt hle
    exact absurd (hlt.trans_le ((cut_le_cut hb hij (Nat.le_of_lt hj)).trans hle)) (lt_irrefl x)
  rcases Nat.lt_trichotomy i j with h | h | h
  · exact absurd hx'.1 (hdisj h hj hx.2)
  · exact h
  · exact absurd hx.1 (hdisj h hi hx'.2)

/-- **Every point of the range lies in exactly one block.** -/
theorem existsUnique_block (hb : ∀ k < n, b k < b (k + 1)) {x : α} (h₀ : b 0 ≤ x) (hn : x < b n) :
    ∃! k, k < n ∧ b k ≤ x ∧ x < b (k + 1) := by
  have hex : ∃ k, k < n ∧ b k ≤ x ∧ x < b (k + 1) := by
    induction n with
    | zero => exact absurd (h₀.trans_lt hn) (lt_irrefl _)
    | succ n ih =>
      rcases lt_or_ge x (b n) with h | h
      · obtain ⟨k, hk, hle, hlt⟩ := ih (fun k hk => hb k (Nat.lt_succ_of_lt hk)) h
        exact ⟨k, Nat.lt_succ_of_lt hk, hle, hlt⟩
      · exact ⟨n, Nat.lt_succ_self n, h, hn⟩
  obtain ⟨k, hk, hle, hlt⟩ := hex
  refine ⟨k, ⟨hk, hle, hlt⟩, ?_⟩
  rintro j ⟨hj, hle', hlt'⟩
  exact block_unique hb hj hk ⟨hle', hlt'⟩ ⟨hle, hlt⟩

end Dsv41Overlay
