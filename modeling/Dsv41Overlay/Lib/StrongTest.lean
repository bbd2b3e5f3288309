import Mathlib.FieldTheory.Finite.Basic

/-!
# The strong probable-prime test

For odd `n` with `n - 1 = d * 2 ^ r`, `d` odd, a base `a` passes when `a ^ d` is
`1` or `-1` modulo `n`, or becomes `-1` within `r - 1` squarings.

The file has the test as a computation (`splitTwos`, `squareLoop`, `passes`) and
its completeness: a prime passes for every base that it does not divide
(`passes_of_prime`). Composite numbers may pass too; nothing here says they do
not.
-/

namespace Dsv41Overlay.StrongTest

/-- Halves `d` while it is even and counts in `r`; the first argument bounds the
halvings. -/
def splitTwos : ℕ → ℕ → ℕ → ℕ × ℕ
  | 0, d, r => (d, r)
  | fuel + 1, d, r => if d % 2 = 0 then splitTwos fuel (d / 2) (r + 1) else (d, r)

/-- Squares `x` up to `k` times and looks for `n - 1`. -/
def squareLoop (n : ℕ) : ℕ → ℕ → Bool
  | 0, _ => false
  | k + 1, x => if x * x % n = n - 1 then true else squareLoop n k (x * x % n)

/-- The base `a` passes for `n`, with `n - 1 = d * 2 ^ r`. -/
def passes (n d r a : ℕ) : Bool :=
  let x := a ^ d % n
  if x = 1 ∨ x = n - 1 then true else squareLoop n (r - 1) x

/-! ### Splitting off the twos -/

/-- Halving keeps `d * 2 ^ r`. -/
theorem splitTwos_mul (fuel d r : ℕ) :
    (splitTwos fuel d r).1 * 2 ^ (splitTwos fuel d r).2 = d * 2 ^ r := by
  induction fuel generalizing d r with
  | zero => rfl
  | succ fuel ih =>
    unfold splitTwos
    split
    · next heven =>
      rw [ih, pow_succ', ← Nat.mul_assoc, Nat.div_mul_cancel (Nat.dvd_of_mod_eq_zero heven)]
    · rfl

/-- With enough fuel the first part is odd, so that the loop has ended by itself. -/
theorem splitTwos_odd {fuel d : ℕ} (hd : 0 < d) (hfuel : d ≤ fuel) (r : ℕ) :
    (splitTwos fuel d r).1 % 2 = 1 := by
  induction fuel generalizing d r with
  | zero => omega
  | succ fuel ih =>
    unfold splitTwos
    split
    · apply ih <;> omega
    · next hodd => exact Nat.mod_two_ne_zero.mp hodd

/-- An even number has a two to split off. -/
theorem splitTwos_pos {d : ℕ} (hd : 0 < d) (heven : d % 2 = 0) : 0 < (splitTwos d d 0).2 := by
  apply Nat.pos_of_ne_zero
  intro h
  have hmul := splitTwos_mul d d 0
  have hodd := splitTwos_odd hd (le_refl d) 0
  rw [h, pow_zero, Nat.mul_one, Nat.mul_one] at hmul
  omega

/-! ### Completeness -/

/-- Modulo a prime only `1` and `-1` have the square `1`. -/
theorem eq_one_or_of_square {p x : ℕ} (hp : p.Prime) (hx : x < p) (h : x * x % p = 1) :
    x = 1 ∨ x = p - 1 := by
  have hp2 := hp.two_le
  have hx0 : x ≠ 0 := by
    rintro rfl
    rw [Nat.zero_mod] at h
    cases h
  obtain ⟨y, rfl⟩ := Nat.exists_eq_succ_of_ne_zero hx0
  -- `p` divides `(x + 1) (x - 1)`
  have hdvd : p ∣ (y + 2) * y := by
    have hmod : (y + 1) * (y + 1) ≡ 1 [MOD p] := by
      show (y + 1) * (y + 1) % p = 1 % p
      rw [h, Nat.mod_eq_of_lt hp2]
    have hsub := (Nat.modEq_iff_dvd' (by nlinarith)).mp hmod.symm
    have heq : (y + 1) * (y + 1) - 1 = (y + 2) * y := by
      have : (y + 1) * (y + 1) = (y + 2) * y + 1 := by ring
      omega
    rwa [heq] at hsub
  rcases hp.dvd_mul.mp hdvd with h | h
  · have hle := Nat.le_of_dvd (by omega) h
    right
    show y + 1 = p - 1
    omega
  · left
    have hlt : y < p := by
      have : y + 1 < p := hx
      omega
    rw [Nat.eq_zero_of_dvd_of_lt h hlt]

/-- Squarings that end at `1` pass through `-1`. -/
theorem squareLoop_of_pow {p : ℕ} (hp : p.Prime) (k : ℕ) {x : ℕ} (hx : x < p) (h1 : x ≠ 1)
    (h2 : x ≠ p - 1) (h : x ^ 2 ^ (k + 1) % p = 1) : squareLoop p k x = true := by
  induction k generalizing x with
  | zero =>
    rw [Nat.zero_add, pow_one, sq] at h
    rcases eq_one_or_of_square hp hx h with hx1 | hx2
    · exact absurd hx1 h1
    · exact absurd hx2 h2
  | succ k ih =>
    unfold squareLoop
    split
    · rfl
    · next hne =>
      apply ih (Nat.mod_lt _ hp.pos) _ hne
      · -- the remaining squarings
        rw [← Nat.pow_mod, ← sq, ← pow_mul, ← pow_succ']
        exact h
      · intro hone
        rcases eq_one_or_of_square hp hx hone with hx1 | hx2
        · exact h1 hx1
        · exact h2 hx2

/-- **Completeness**: an odd prime passes for every base it does not divide. -/
theorem passes_of_prime {p d r a : ℕ} (hp : p.Prime) (hr : 0 < r) (hdr : d * 2 ^ r = p - 1)
    (ha : ¬ p ∣ a) : passes p d r a = true := by
  unfold passes
  dsimp only
  split
  · rfl
  · next hx =>
    rw [not_or] at hx
    apply squareLoop_of_pow hp _ (Nat.mod_lt _ hp.pos) hx.1 hx.2
    have hcop : a.Coprime p := ((Nat.Prime.coprime_iff_not_dvd hp).mpr ha).symm
    have hfermat : a ^ (p - 1) ≡ 1 [MOD p] := by
      rw [← Nat.totient_prime hp]
      exact Nat.ModEq.pow_totient hcop
    calc (a ^ d % p) ^ 2 ^ (r - 1 + 1) % p
        = a ^ (d * 2 ^ r) % p := by rw [Nat.sub_add_cancel hr, ← Nat.pow_mod, ← pow_mul]
      _ = a ^ (p - 1) % p := by rw [hdr]
      _ = 1 % p := hfermat
      _ = 1 := Nat.mod_eq_of_lt hp.one_lt

end Dsv41Overlay.StrongTest
