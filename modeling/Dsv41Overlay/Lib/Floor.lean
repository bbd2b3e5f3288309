import Mathlib.Algebra.Order.Group.Int
import Mathlib.Order.Bounds.Basic
import Mathlib.Tactic.Ring

/-!
# Rounding down to a multiple

`x / a * a` is the greatest multiple of `a` up to `x`. Bounds that a program writes as
two nested roundings are read off this one characterization.
-/

namespace Dsv41Overlay.Floor

variable {a x h : ℤ}

theorem le (ha : 0 < a) (x : ℤ) : x / a * a ≤ x := by
  have hdiv := Int.mul_ediv_add_emod x a
  have hmod := Int.emod_nonneg x (Int.ne_of_gt ha)
  rw [Int.mul_comm] at hdiv
  omega

theorem sub_lt (ha : 0 < a) (x : ℤ) : x - a < x / a * a := by
  have hdiv := Int.mul_ediv_add_emod x a
  have hmod := Int.emod_lt_of_pos x ha
  rw [Int.mul_comm] at hdiv
  omega

theorem dvd (a x : ℤ) : a ∣ x / a * a := Int.dvd_mul_left (x / a) a

theorem le_of_dvd (ha : 0 < a) (hdvd : a ∣ h) (hle : h ≤ x) : h ≤ x / a * a := by
  obtain ⟨k, rfl⟩ := hdvd
  have hk : k ≤ x / a := (Int.le_ediv_iff_mul_le ha).mpr (by rwa [Int.mul_comm])
  calc a * k = k * a := Int.mul_comm a k
    _ ≤ x / a * a := Int.mul_le_mul_of_nonneg_right hk (Int.le_of_lt ha)

/-- **Rounding down gives the greatest multiple.** -/
theorem isGreatest (ha : 0 < a) (x : ℤ) : IsGreatest {h | a ∣ h ∧ h ≤ x} (x / a * a) := by
  refine ⟨⟨dvd a x, le ha x⟩, ?_⟩
  rintro h ⟨hdvd, hle⟩
  exact le_of_dvd ha hdvd hle

/-- Nothing from `a` on is rounded below `a`. -/
theorem lt_of_lt (ha : 0 < a) (h : x / a * a < a) : x < a := by
  by_contra hle
  have := le_of_dvd ha (Int.dvd_refl a) (Int.not_lt.mp hle)
  omega

/-- The greatest positive multiple, if there is one. -/
theorem isGreatest_pos_iff (ha : 0 < a) :
    IsGreatest {h | a ∣ h ∧ a ≤ h ∧ h ≤ x} h ↔ h = x / a * a ∧ a ≤ h := by
  constructor
  · rintro ⟨⟨hdvd, hlo, hle⟩, hmax⟩
    have hup := le_of_dvd ha hdvd hle
    have hdown : x / a * a ≤ h := hmax ⟨dvd a x, Int.le_trans hlo hup, le ha x⟩
    exact ⟨Int.le_antisymm hup hdown, hlo⟩
  · rintro ⟨rfl, hlo⟩
    refine ⟨⟨dvd a x, hlo, le ha x⟩, ?_⟩
    rintro h ⟨hdvd, -, hle⟩
    exact le_of_dvd ha hdvd hle

end Dsv41Overlay.Floor
