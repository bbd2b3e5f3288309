import Dsv41Overlay.Lib.Launch
import Mathlib.Data.List.ProdSigma
import Mathlib.Data.List.Nodup

/-!
# Blocks over pairs

A launch gives each of its blocks a number, and a block reads two indices off it: a
run, which is a list of items, and a column group. Over the whole launch every pair of
an item and a group is visited once (`visits_perm`); pairs are then counted factor by
factor (`countP_product`).
-/

namespace Dsv41Overlay

variable {α β : Type*}

theorem range_mul (n m : ℕ) :
    List.range (n * m) = (List.range n).flatMap fun i => (List.range m).map (i * m + ·) := by
  induction n with
  | zero => simp
  | succ n ih =>
    rw [Nat.succ_mul, List.range_add, ih, List.range_succ, List.flatMap_append,
      List.flatMap_singleton]

/-- The pairs that the blocks of a launch visit: block `item` has run `item / per` and group
`item % per`. -/
def visits (rows : ℕ → List α) (n per : ℕ) : List (α × ℕ) :=
  (List.range (n * per)).flatMap fun item => (rows (item / per)).map fun s => (s, item % per)

/-- A walk over numbered blocks is a walk over both indices. -/
theorem flatMap_range_mul (f : ℕ → ℕ → List β) (n per : ℕ) :
    ((List.range (n * per)).flatMap fun item => f (item / per) (item % per)) =
      (List.range n).flatMap fun i => (List.range per).flatMap (f i) := by
  rw [range_mul, List.flatMap_assoc]
  refine List.flatMap_congr fun i _ => ?_
  rw [List.flatMap_map]
  refine List.flatMap_congr fun j hj => ?_
  have hj := List.mem_range.mp hj
  have hdiv : (i * per + j) / per = i := by
    rw [Nat.mul_comm, Nat.mul_add_div (Nat.zero_lt_of_lt hj), Nat.div_eq_of_lt hj, Nat.add_zero]
  have hmod : (i * per + j) % per = j := by
    rw [Nat.mul_comm, Nat.mul_add_mod, Nat.mod_eq_of_lt hj]
  rw [hdiv, hmod]

/-- **Every pair is visited once.** -/
theorem visits_perm (rows : ℕ → List α) (n per : ℕ) :
    (visits rows n per).Perm (((List.range n).flatMap rows) ×ˢ List.range per) := by
  have hrun : ∀ i, ((List.range per).flatMap fun j => (rows i).map fun s => (s, j)).Perm
      ((rows i) ×ˢ List.range per) := by
    intro i
    have hswap := flatMap_flatMap_perm (List.range per) (rows i) fun j s => [(s, j)]
    simp only [← List.map_eq_flatMap] at hswap
    exact hswap
  calc visits rows n per
      = (List.range n).flatMap fun i => (List.range per).flatMap fun j =>
          (rows i).map fun s => (s, j) :=
        flatMap_range_mul (fun i j => (rows i).map fun s => (s, j)) n per
    _ |>.Perm ((List.range n).flatMap fun i => (rows i) ×ˢ List.range per) :=
      List.Perm.flatMap_left _ fun i _ => hrun i
    _ = ((List.range n).flatMap rows) ×ˢ List.range per := List.flatMap_assoc.symm

/-- Pairs that satisfy a condition on each side. -/
theorem countP_product (l : List α) (m : List β) (p : α → Bool) (q : β → Bool) :
    (l ×ˢ m).countP (fun x => p x.1 && q x.2) = l.countP p * m.countP q := by
  induction l with
  | nil => simp
  | cons a l ih =>
    have hrow : (m.map fun b => (a, b)).countP (fun x => p x.1 && q x.2) =
        if p a then m.countP q else 0 := by
      rw [List.countP_map]
      by_cases ha : p a
      · simp [ha, Function.comp_def]
      · simp [ha, Function.comp_def]
    rw [List.product_cons, List.countP_append, ih, hrow, List.countP_cons, Nat.add_mul,
      Nat.add_comm]
    by_cases ha : p a
    · simp [ha]
    · simp [ha]

/-- One block of `k` places. -/
theorem countP_block {n c : ℕ} (k : ℕ) (hc : c < n) (p : ℕ → Bool) :
    (List.range (n * k)).countP (fun j => decide (j / k = c) && p j) =
      (List.range k).countP fun j => p (c * k + j) := by
  have hpiece : ∀ i, ((List.range k).map (i * k + ·)).countP (fun j => decide (j / k = c) && p j) =
      if i = c then (List.range k).countP fun j => p (c * k + j) else 0 := by
    intro i
    have hdiv : ∀ j ∈ List.range k, (i * k + j) / k = i := fun j hj => by
      have hj := List.mem_range.mp hj
      rw [Nat.mul_comm, Nat.mul_add_div (Nat.zero_lt_of_lt hj), Nat.div_eq_of_lt hj, Nat.add_zero]
    rw [List.countP_map]
    by_cases hi : i = c
    · rw [if_pos hi]
      refine List.countP_congr fun j hj => ?_
      rw [Function.comp_apply, hdiv j hj, hi, decide_eq_true rfl, Bool.true_and]
    · rw [if_neg hi]
      refine List.countP_eq_zero.mpr fun j hj => ?_
      rw [Function.comp_apply, hdiv j hj, decide_eq_false hi]
      exact Bool.false_ne_true
  rw [range_mul, List.countP_flatMap]
  refine (congrArg List.sum (List.map_congr_left fun i _ => hpiece i)).trans ?_
  clear hpiece
  induction n with
  | zero => exact absurd hc (Nat.not_lt_zero c)
  | succ n ih =>
    rw [List.range_succ, List.map_append, List.sum_append, List.map_singleton, List.sum_singleton]
    rcases Nat.lt_or_eq_of_le (Nat.le_of_lt_succ hc) with h | rfl
    · rw [ih h, if_neg (Nat.ne_of_gt h), Nat.add_zero]
    · have hzero : ((List.range c).map fun i =>
          if i = c then (List.range k).countP fun j => p (c * k + j) else 0).sum = 0 := by
        refine List.sum_eq_zero fun x hx => ?_
        obtain ⟨i, hi, rfl⟩ := List.mem_map.mp hx
        exact if_neg (Nat.ne_of_lt (List.mem_range.mp hi))
      rw [hzero, if_pos rfl, Nat.zero_add]

/-- The groups of one chunk. -/
theorem countP_div {n c : ℕ} (k : ℕ) (hc : c < n) :
    (List.range (n * k)).countP (fun j => decide (j / k = c)) = k := by
  have hblock := countP_block k hc fun _ => true
  simp only [Bool.and_true] at hblock
  rw [hblock]
  refine (List.countP_eq_length.mpr fun j _ => rfl).trans List.length_range

/-- Lists whose members tell which list they are from have no member in common. -/
theorem nodup_flatMap_of_source {l : List α} (hl : l.Nodup) {f : α → List β} (source : β → α)
    (hf : ∀ a ∈ l, (f a).Nodup) (hs : ∀ a ∈ l, ∀ b ∈ f a, source b = a) :
    (l.flatMap f).Nodup := by
  refine List.nodup_flatMap.mpr ⟨hf, hl.imp_of_mem fun ha ha' hne b hb hb' => hne ?_⟩
  exact (hs _ ha b hb).symm.trans (hs _ ha' b hb')

end Dsv41Overlay
