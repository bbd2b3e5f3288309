import Mathlib.Analysis.SpecialFunctions.Sigmoid
import Mathlib.Analysis.Complex.Trigonometric

/-!
# The gated activation of the two expert paths

A routed expert applies `down(act(gate x, up x))`. The overlay's own paths (the
per-expert loop, the sorted and the batched fat paths, the grouped kernel)
clamp the gate *before* the SiLU, the cooperative decode kernel clamps the
activated gate *after* it. This file compares the two in exact real
arithmetic.

Below the limit the clamps are idle and the two agree. Above it they do not:
the cooperative value saturates at `limit` while the stock one stays at
`silu limit < limit` (`actGate_eq_loopAct_iff`). What keeps the deviation small
in practice is that SiLU is close to the identity there: it is at most
`limit * (1 - sigmoid limit)` per unit of the up lane
(`abs_actGate_sub_loopAct_le`).
-/

namespace Dsv41Overlay.Experts

/-! ### The cooperative kernel's elementwise helpers -/

/-- The activation selector of a cooperative launch, `MOE_COOP_ACT_*`. -/
inductive Act
  | silu
  | gelu
  | relu2
  | siluOai
  deriving DecidableEq, Repr

/-- `act_silu`. -/
noncomputable def actSilu (x : ℝ) : ℝ :=
  let e := Real.exp (-x)
  x * (1 / (1 + e))

/-- `act_gelu`, the tanh form. -/
noncomputable def actGelu (x : ℝ) : ℝ :=
  let c := 0.797884560803
  let t := c * (x + 0.044715 * x * x * x)
  0.5 * x * (1 + Real.tanh t)

/-- `act_relu2`. -/
noncomputable def actRelu2 (x : ℝ) : ℝ :=
  let x := max 0 x
  x * x

/-- `act_oai_swiglu`: here the gate itself is clamped from above. -/
noncomputable def actOaiSwiglu (g u limit : ℝ) : ℝ :=
  let g' := if limit ≠ 0 then min g limit else g
  let u' := if limit ≠ 0 then min (max u (-limit)) limit else u
  let glu := g' * (1 / (1 + Real.exp (-1.702 * g')))
  (u' + 1) * glu

/-- `act_gate`: the gate lane is activated first and clamped from above
afterwards, the up lane is clamped symmetrically. -/
noncomputable def actGate (act : Act) (gated : Bool) (g u limit : ℝ) : ℝ :=
  if act = .siluOai then actOaiSwiglu g u limit
  else
    let x :=
      if gated = false then max 0 u
      else if act = .silu then actSilu g
      else if act = .gelu then actGelu g
      else actRelu2 g
    let u' := if limit ≠ 0 then min (max u (-limit)) limit else u
    let x' := if limit ≠ 0 then min x limit else x
    x' * u'

/-! ### The stock paths -/

/-- `F.silu`. -/
noncomputable def silu (x : ℝ) : ℝ :=
  x * Real.sigmoid x

/-- `up.clamp(min=-limit, max=limit)`. -/
noncomputable def clampUp (limit up : ℝ) : ℝ :=
  min (max up (-limit)) limit

/-- The activation of `apply_exl3_python_loop`. -/
noncomputable def loopAct (limit gate up : ℝ) : ℝ :=
  silu (min gate limit) * clampUp limit up

/-- The activation of `apply_exl3_sorted_fat`. -/
noncomputable def sortedFatAct (limit gate up : ℝ) : ℝ :=
  silu (min gate limit) * clampUp limit up

/-- The activation of `apply_exl3_batched_fat`: in-place clamps, then
`sigmoid(gate).mul_(gate).mul_(up)`. -/
noncomputable def batchedFatAct (limit gate up : ℝ) : ℝ :=
  let gateOut := min gate limit
  let upOut := clampUp limit up
  Real.sigmoid gateOut * gateOut * upOut

/-- The epilogue of the grouped `fm_gateup_kernel`. -/
noncomputable def gateupAct (limit g u : ℝ) : ℝ :=
  let g := min g limit
  let u := min (max u (-limit)) limit
  1 / (1 + Real.exp (-g)) * g * u

/-! ### SiLU -/

theorem actSilu_eq_silu (x : ℝ) : actSilu x = silu x := by
  show x * (1 / (1 + Real.exp (-x))) = x * Real.sigmoid x
  rw [one_div, Real.sigmoid_def]

/-- SiLU lies strictly below the identity on the positive reals. -/
theorem silu_lt_self {x : ℝ} (hx : 0 < x) : silu x < x := by
  calc silu x = x * Real.sigmoid x := rfl
    _ < x * 1 := mul_lt_mul_of_pos_left (Real.sigmoid_lt_one x) hx
    _ = x := mul_one x

theorem silu_nonpos {x : ℝ} (hx : x ≤ 0) : silu x ≤ 0 :=
  mul_nonpos_of_nonpos_of_nonneg hx (Real.sigmoid_nonneg x)

/-- SiLU is strictly increasing from any positive argument on. -/
theorem silu_lt_silu {x y : ℝ} (hx : 0 < x) (hxy : x < y) : silu x < silu y := by
  calc silu x = x * Real.sigmoid x := rfl
    _ < y * Real.sigmoid x := mul_lt_mul_of_pos_right hxy (Real.sigmoid_pos x)
    _ ≤ y * Real.sigmoid y :=
      mul_le_mul_of_nonneg_left (Real.sigmoid_le hxy.le) (hx.trans hxy).le
    _ = silu y := rfl

/-- SiLU never exceeds a positive bound of its argument. -/
theorem silu_le_of_le {x b : ℝ} (hb : 0 < b) (hx : x ≤ b) : silu x ≤ b := by
  rcases le_or_gt x 0 with h0 | h0
  · exact (silu_nonpos h0).trans hb.le
  · exact (silu_lt_self h0).le.trans hx

/-! ### The clamp on the up lane -/

theorem clampUp_zero {limit : ℝ} (hl : 0 < limit) : clampUp limit 0 = 0 := by
  unfold clampUp
  rw [max_eq_left (by linarith), min_eq_left hl.le]

theorem clampUp_eq_zero {limit u : ℝ} (hl : 0 < limit) : clampUp limit u = 0 ↔ u = 0 := by
  constructor
  · intro h
    unfold clampUp at h
    -- only the middle branch of the clamp can be zero
    rcases le_total (max u (-limit)) limit with h1 | h1
    · rw [min_eq_left h1] at h
      rcases le_total u (-limit) with h2 | h2
      · rw [max_eq_right h2] at h
        linarith
      · rwa [max_eq_left h2] at h
    · rw [min_eq_right h1] at h
      linarith
  · rintro rfl
    exact clampUp_zero hl

/-! ### The stock paths share one activation -/

theorem batchedFatAct_eq_loopAct (limit g u : ℝ) : batchedFatAct limit g u = loopAct limit g u := by
  show Real.sigmoid (min g limit) * min g limit * clampUp limit u = loopAct limit g u
  rw [mul_comm (Real.sigmoid (min g limit))]
  rfl

theorem gateupAct_eq_loopAct (limit g u : ℝ) : gateupAct limit g u = loopAct limit g u := by
  rw [← batchedFatAct_eq_loopAct]
  show 1 / (1 + Real.exp (-min g limit)) * min g limit * clampUp limit u =
    Real.sigmoid (min g limit) * min g limit * clampUp limit u
  rw [one_div, Real.sigmoid_def]

/-! ### Cooperative against stock -/

/-- The instance the decode path launches, with both clamps in force. -/
theorem actGate_silu {limit : ℝ} (hl : limit ≠ 0) (g u : ℝ) :
    actGate .silu true g u limit = min (silu g) limit * clampUp limit u := by
  simp [actGate, hl, actSilu_eq_silu, clampUp]

/-- The activated gate of the two paths, below the limit. -/
theorem min_silu_of_le {limit g : ℝ} (hl : 0 < limit) (hg : g ≤ limit) :
    min (silu g) limit = silu (min g limit) := by
  rw [min_eq_left (silu_le_of_le hl hg), min_eq_left hg]

/-- The activated gate of the two paths, above the limit. -/
theorem silu_min_lt_of_lt {limit g : ℝ} (hl : 0 < limit) (hg : limit < g) :
    silu (min g limit) < min (silu g) limit := by
  rw [min_eq_right hg.le]
  exact lt_min (silu_lt_silu hl hg) (silu_lt_self hl)

/-- **Where the two activations agree**: exactly where the gate stays under the
limit or the up lane vanishes. -/
theorem actGate_eq_loopAct_iff {limit : ℝ} (hl : 0 < limit) (g u : ℝ) :
    actGate .silu true g u limit = loopAct limit g u ↔ g ≤ limit ∨ u = 0 := by
  rw [actGate_silu hl.ne', loopAct, mul_eq_mul_right_iff, clampUp_eq_zero hl]
  constructor
  · rintro (h | h)
    · left
      by_contra hg
      exact (silu_min_lt_of_lt hl (not_le.mp hg)).ne' h
    · exact Or.inr h
  · rintro (hg | h)
    · exact Or.inl (min_silu_of_le hl hg)
    · exact Or.inr h

/-- **How far they are apart**: never more than SiLU's distance from the
identity at the limit, scaled by the clamped up lane. -/
theorem abs_actGate_sub_loopAct_le {limit : ℝ} (hl : 0 < limit) (g u : ℝ) :
    |actGate .silu true g u limit - loopAct limit g u| ≤
      limit * (1 - Real.sigmoid limit) * |clampUp limit u| := by
  -- the bound is not negative, and the common factor goes
  have hb : 0 ≤ limit * (1 - Real.sigmoid limit) :=
    mul_nonneg hl.le (sub_nonneg.mpr (Real.sigmoid_le_one limit))
  rw [actGate_silu hl.ne', loopAct, ← sub_mul, abs_mul]
  apply mul_le_mul_of_nonneg_right _ (abs_nonneg _)
  -- up to the limit both gates are equal, above it only one is clamped from within
  rcases le_or_gt g limit with hg | hg
  · rw [min_silu_of_le hl hg, sub_self, abs_zero]
    exact hb
  · have hlt := silu_min_lt_of_lt hl hg
    rw [abs_of_pos (sub_pos.mpr hlt)]
    calc min (silu g) limit - silu (min g limit)
        ≤ limit - silu (min g limit) := sub_le_sub_right (min_le_right _ _) _
      _ = limit - silu limit := by rw [min_eq_right hg.le]
      _ = limit * (1 - Real.sigmoid limit) := by unfold silu; ring

/-- **Cooperative and stock activation.** The overlay's four expert paths apply
one activation. The cooperative kernel's agrees with it exactly where the gate
is at most the limit or the up lane is zero, and nowhere deviates by more than
`limit * (1 - sigmoid limit)` times the clamped up lane. -/
theorem coop_act_vs_stock (g u limit : ℝ) (hl : 0 < limit) :
    (sortedFatAct limit g u = loopAct limit g u ∧
      batchedFatAct limit g u = loopAct limit g u ∧
      gateupAct limit g u = loopAct limit g u) ∧
    (actGate .silu true g u limit = loopAct limit g u ↔ g ≤ limit ∨ u = 0) ∧
    |actGate .silu true g u limit - loopAct limit g u| ≤
      limit * (1 - Real.sigmoid limit) * |clampUp limit u| :=
  ⟨⟨rfl, batchedFatAct_eq_loopAct limit g u, gateupAct_eq_loopAct limit g u⟩,
    actGate_eq_loopAct_iff hl g u, abs_actGate_sub_loopAct_le hl g u⟩

/-- The comparison at the recipe's default limit. -/
theorem coop_act_vs_stock_default :
    (0 : ℝ) < 10 ∧
      (actGate .silu true 12 1 10 = loopAct 10 12 1 ↔ (12 : ℝ) ≤ 10 ∨ (1 : ℝ) = 0) :=
  ⟨by norm_num, (coop_act_vs_stock 12 1 10 (by norm_num)).2.1⟩

/-- The paths differ at gate 12, up 1 and the default limit 10. -/
theorem coop_act_ne_stock :
    ¬ ∀ g u limit : ℝ, 0 < limit → actGate .silu true g u limit = loopAct limit g u := by
  intro h
  have heq := (actGate_eq_loopAct_iff (by norm_num : (0 : ℝ) < 10) 12 1).mp
    (h 12 1 10 (by norm_num))
  norm_num at heq

end Dsv41Overlay.Experts
