import Dsv41Overlay.Lib.Floor
import Dsv41Overlay.SwaFinal.Checkpoint

/-!
# The final checkpoints are the best possible

A checkpoint is a positive multiple of the alignment. A freed request can complete the
checkpoints whose blocks, with the EAGLE block, end in the computed tokens; a later
prompt of `N` tokens may use those that end `keep` tokens before its own end.

`_dsv41_swa_final_boundaries` writes both bounds as nested roundings. `mem_swaFinalHits`
is the characterization by greatest elements: the greatest complete checkpoint, and the
greatest one that the prompt `N = T` may use, if it is complete too.

The reporting script has the formula a second time, with the sizes of the deployment
written in (`predictedHit`). Without YOCO its cap is `N - 1`, the last token being computed
in any case.
-/

namespace Dsv41Overlay
namespace SwaFinal

/-! ### The two formulas -/

/-- `_dsv41_swa_final_boundaries`, on the integers of the source. -/
def swaFinalHits (numComputed numTokens blockSize alignment : ℤ) (useEagle : Bool) (keep : ℤ) :
    List ℤ :=
  let peek := if useEagle then blockSize else 0
  let full := numComputed / blockSize * blockSize
  let hits := [(full - peek) / alignment * alignment]
  let hits :=
    if keep = 0 then hits else hits ++ [(numTokens - keep - peek) / alignment * alignment]
  (hits.dedup.filter fun h => decide (alignment ≤ h ∧ h + peek ≤ full)).insertionSort (· ≤ ·)

/-- On counts of tokens it is the function the free hook calls. -/
theorem swaFinalBoundaries_eq_map (C T bs A : ℕ) (useEagle : Bool) (keep : ℕ) :
    swaFinalBoundaries C T bs A useEagle keep
      = (swaFinalHits C T bs A useEagle keep).map Int.toNat := by
  unfold swaFinalBoundaries swaFinalHits
  simp only [Int.natCast_eq_zero, Nat.cast_mul, Int.natCast_ediv]

namespace Turns

/-- `BS`, `ALIGN` and `PEEK` of the reporting script. -/
def bs : ℤ := 64

@[inherit_doc bs] def align : ℤ := 128

@[inherit_doc bs] def peek : ℤ := 64

/-- `b_end`. -/
def bEnd (computed : ℤ) : ℤ := (computed / bs * bs - peek) / align * align

/-- `b_yoco`. -/
def bYoco (numTokens keep : ℤ) : ℤ := (numTokens - keep - peek) / align * align

/-- `predicted_hit`: the hit with the final-window checkpoint, `keep = 0` for YOCO off. -/
def predictedHit (P O N observed keep : ℤ) : ℤ :=
  let T := P + O
  let cands := [bEnd (T - 1)] ++ if keep ≠ 0 then [bYoco T keep] else []
  let cap := if keep ≠ 0 then N - keep else N - 1
  let usable := cands.filter fun b =>
    decide (align ≤ b ∧ b + peek ≤ cap ∧ b + peek ≤ (T - 1) / bs * bs)
  usable.foldl max observed

end Turns

/-! ### Checkpoints -/

/-- `h` is a checkpoint whose blocks, with the EAGLE block, end at `limit` or before. -/
def Checkpoint (alignment peek limit h : ℤ) : Prop :=
  alignment ∣ h ∧ alignment ≤ h ∧ h + peek ≤ limit

section Checkpoints

variable {A peek limit h : ℤ}

/-- The greatest checkpoint below a limit is the limit rounded down. -/
theorem isGreatest_checkpoint (hA : 0 < A) :
    IsGreatest {h | Checkpoint A peek limit h} h ↔ h = (limit - peek) / A * A ∧ A ≤ h := by
  have hset : {h | Checkpoint A peek limit h} = {h | A ∣ h ∧ A ≤ h ∧ h ≤ limit - peek} := by
    ext h
    exact and_congr_right fun _ => and_congr_right fun _ => le_sub_iff_add_le.symm
  rw [hset]
  exact Floor.isGreatest_pos_iff hA

/-- The larger of a start value and the members of a list. -/
theorem isGreatest_foldl_max (l : List ℤ) (a : ℤ) :
    IsGreatest {x | x = a ∨ x ∈ l} (l.foldl max a) := by
  induction l generalizing a with
  | nil =>
    refine ⟨.inl rfl, ?_⟩
    rintro x (rfl | hx)
    · exact le_rfl
    · cases hx
  | cons b l ih =>
    obtain ⟨hmem, hup⟩ := ih (max a b)
    constructor
    · rcases hmem with h | h
      · rcases max_choice a b with ha | hb
        · exact .inl (h.trans ha)
        · exact .inr (List.mem_cons.mpr (.inl (h.trans hb)))
      · exact .inr (List.mem_cons_of_mem b h)
    · have hstart : max a b ≤ l.foldl max (max a b) := hup (.inl rfl)
      rintro x (rfl | hx)
      · exact (le_max_left x b).trans hstart
      · rcases List.mem_cons.mp hx with rfl | hx
        · exact (le_max_right a x).trans hstart
        · exact hup (.inr hx)

end Checkpoints

/-! ### The boundaries -/

section Hits

variable {C T bs A keep h : ℤ} {useEagle : Bool}

/-- The tokens of the block EAGLE drops. -/
def peekOf (useEagle : Bool) (blockSize : ℤ) : ℤ := if useEagle then blockSize else 0

theorem mem_swaFinalHits_iff :
    h ∈ swaFinalHits C T bs A useEagle keep ↔
      (h = (C / bs * bs - peekOf useEagle bs) / A * A ∨
        keep ≠ 0 ∧ h = (T - keep - peekOf useEagle bs) / A * A) ∧
      A ≤ h ∧ h + peekOf useEagle bs ≤ C / bs * bs := by
  unfold swaFinalHits peekOf
  rw [List.mem_insertionSort, List.mem_filter, List.mem_dedup, decide_eq_true_eq]
  apply and_congr_left
  intro _
  split
  · next hk => simp [hk]
  · next hk => simp [hk]

/-- **What the boundaries are**: the greatest complete checkpoint, and the greatest one
usable by the request's own tokens, if it is complete. -/
theorem mem_swaFinalHits (hA : 0 < A) :
    h ∈ swaFinalHits C T bs A useEagle keep ↔
      IsGreatest {h | Checkpoint A (peekOf useEagle bs) (C / bs * bs) h} h ∨
      keep ≠ 0 ∧ IsGreatest {h | Checkpoint A (peekOf useEagle bs) (T - keep) h} h ∧
        h + peekOf useEagle bs ≤ C / bs * bs := by
  rw [mem_swaFinalHits_iff, isGreatest_checkpoint hA, isGreatest_checkpoint hA]
  constructor
  · rintro ⟨rfl | ⟨hk, rfl⟩, hlo, hfull⟩
    · exact .inl ⟨rfl, hlo⟩
    · exact .inr ⟨hk, ⟨rfl, hlo⟩, hfull⟩
  · rintro (⟨rfl, hlo⟩ | ⟨hk, ⟨rfl, hlo⟩, hfull⟩)
    · have hle := Floor.le hA (C / bs * bs - peekOf useEagle bs)
      exact ⟨.inl rfl, hlo, by omega⟩
    · exact ⟨.inr ⟨hk, rfl⟩, hlo, hfull⟩

/-- Sorting a list without duplicates gives a strictly increasing list. -/
theorem pairwise_lt_insertionSort {l : List ℤ} (h : l.Nodup) :
    (l.insertionSort (· ≤ ·)).Pairwise (· < ·) := by
  have hsorted := List.pairwise_insertionSort (· ≤ ·) l
  have hnodup : (l.insertionSort (· ≤ ·)).Nodup :=
    (List.perm_insertionSort (· ≤ ·) l).nodup_iff.mpr h
  exact (hsorted.and hnodup).imp fun h => lt_of_le_of_ne h.1 h.2

/-- They are listed in increasing order. -/
theorem pairwise_swaFinalHits : (swaFinalHits C T bs A useEagle keep).Pairwise (· < ·) := by
  unfold swaFinalHits
  apply pairwise_lt_insertionSort
  apply List.Nodup.filter
  exact List.nodup_dedup _

/-- The best boundary that a prompt of `N` tokens may use, `0` if there is none. -/
def bestUsable (useEagle : Bool) (blockSize keep N : ℤ) (hits : List ℤ) : ℤ :=
  (hits.filter fun h => decide (h + peekOf useEagle blockSize ≤ N - keep)).foldl max 0

theorem le_bestUsable {N : ℤ} {hits : List ℤ} (hmem : h ∈ hits)
    (hN : h + peekOf useEagle bs ≤ N - keep) : h ≤ bestUsable useEagle bs keep N hits :=
  (isGreatest_foldl_max _ 0).2 (.inr (List.mem_filter.mpr ⟨hmem, decide_eq_true hN⟩))

theorem bestUsable_nonneg {N : ℤ} {hits : List ℤ} : 0 ≤ bestUsable useEagle bs keep N hits :=
  (isGreatest_foldl_max _ 0).2 (.inl rfl)

/-- **Little is lost.** A continuation of `N ≥ T` tokens recomputes a bounded part of the
`C` tokens the request computed. -/
theorem lost_le {N : ℤ} (hbs : 0 < bs) (hA : 0 < A) (hT : C ≤ T) (hN : T ≤ N) (hkeep : 0 < keep) :
    C - bestUsable useEagle bs keep N (swaFinalHits C T bs A useEagle keep)
      ≤ keep + peekOf useEagle bs + A + bs := by
  have hbest : 0 ≤ bestUsable useEagle bs keep N (swaFinalHits C T bs A useEagle keep) :=
    bestUsable_nonneg
  have hle : ∀ h ∈ swaFinalHits C T bs A useEagle keep, h + peekOf useEagle bs ≤ N - keep →
      h ≤ bestUsable useEagle bs keep N (swaFinalHits C T bs A useEagle keep) :=
    fun h => le_bestUsable
  have hfull := Floor.sub_lt hbs C
  have hend := Floor.sub_lt hA (C / bs * bs - peekOf useEagle bs)
  have hend' := Floor.le hA (C / bs * bs - peekOf useEagle bs)
  have hyoco := Floor.sub_lt hA (T - keep - peekOf useEagle bs)
  have hyoco' := Floor.le hA (T - keep - peekOf useEagle bs)
  by_cases hA₂ : A ≤ (T - keep - peekOf useEagle bs) / A * A
  · by_cases hcomplete :
        (T - keep - peekOf useEagle bs) / A * A + peekOf useEagle bs ≤ C / bs * bs
    · -- the second checkpoint is there and usable
      have hmem := mem_swaFinalHits_iff.mpr ⟨.inr ⟨hkeep.ne', rfl⟩, hA₂, hcomplete⟩
      have := hle _ hmem (by omega)
      omega
    · by_cases hA₁ : A ≤ (C / bs * bs - peekOf useEagle bs) / A * A
      · -- it lies above the computed blocks, so the first one may be used
        have hfirst : (C / bs * bs - peekOf useEagle bs) / A * A
            ∈ swaFinalHits C T bs A useEagle keep :=
          mem_swaFinalHits_iff.mpr ⟨.inl rfl, hA₁, by omega⟩
        have := hle _ hfirst (by omega)
        omega
      · have := Floor.lt_of_lt hA (Int.not_le.mp hA₁)
        omega
  · -- the whole prompt is short
    have := Floor.lt_of_lt hA (Int.not_le.mp hA₂)
    omega

end Hits

/-! ### The reporting script -/

namespace Turns

/-- The last token a prompt of `N` tokens may take from the cache: YOCO recomputes `keep`
tokens, a lookup without it leaves the last token. -/
def cap (N keep : ℤ) : ℤ := if keep = 0 then N - 1 else N - keep

/-- The checkpoints the script considers are the boundaries of a request that computed all
its tokens but the last. -/
theorem mem_usable {P O N keep b : ℤ} :
    (b ∈ [bEnd (P + O - 1)] ++ (if keep ≠ 0 then [bYoco (P + O) keep] else []) ∧
      align ≤ b ∧ b + peek ≤ (if keep ≠ 0 then N - keep else N - 1) ∧
        b + peek ≤ (P + O - 1) / bs * bs) ↔
      b ∈ swaFinalHits (P + O - 1) (P + O) bs align true keep ∧ b + peek ≤ cap N keep := by
  rw [mem_swaFinalHits_iff]
  have hcap : (if keep ≠ 0 then N - keep else N - 1) = cap N keep := ite_not _ _ _
  have hcands : b ∈ [bEnd (P + O - 1)] ++ (if keep ≠ 0 then [bYoco (P + O) keep] else []) ↔
      b = bEnd (P + O - 1) ∨ keep ≠ 0 ∧ b = bYoco (P + O) keep := by
    split
    · next hk => simp [hk]
    · next hk => simp [hk]
  rw [hcap, hcands]
  constructor
  · rintro ⟨hb, hlo, hN, hfull⟩
    exact ⟨⟨hb, hlo, hfull⟩, hN⟩
  · rintro ⟨⟨hb, hlo, hfull⟩, hN⟩
    exact ⟨hb, hlo, hN, hfull⟩

/-- **The script predicts the best usable boundary.** -/
theorem isGreatest_predictedHit (P O N observed keep : ℤ) :
    IsGreatest {h | h = observed ∨
        h ∈ swaFinalHits (P + O - 1) (P + O) bs align true keep ∧ h + peek ≤ cap N keep}
      (predictedHit P O N observed keep) := by
  have hset : {h | h = observed ∨
      h ∈ swaFinalHits (P + O - 1) (P + O) bs align true keep ∧ h + peek ≤ cap N keep}
      = {h | h = observed ∨
          h ∈ ([bEnd (P + O - 1)] ++ if keep ≠ 0 then [bYoco (P + O) keep] else []).filter
            fun b => decide (align ≤ b ∧ b + peek ≤ (if keep ≠ 0 then N - keep else N - 1) ∧
              b + peek ≤ (P + O - 1) / bs * bs)} := by
    ext h
    apply or_congr_right
    rw [List.mem_filter, decide_eq_true_eq]
    exact mem_usable.symm
  rw [hset]
  exact isGreatest_foldl_max _ observed

end Turns

/-! ### The result -/

/-- **The final checkpoints are the best possible.** The boundaries, listed in increasing
order, are the greatest complete checkpoint and, under YOCO, the greatest one the prompt
`N = T` may use, if it is complete. The second may be used by every continuation of the
`T` tokens, and no greater complete one by `N = T`; of the `C` computed tokens a
continuation loses little. The reporting script predicts the greatest of the observed hit
and of the boundaries that end at the cap or before, where the cap leaves `keep` tokens
under YOCO and one token without it. -/
theorem final_checkpoints_best {bs A : ℤ} (hbs : 0 < bs) (hA : 0 < A) (useEagle : Bool)
    {C T keep : ℤ} (hT : C ≤ T) (hkeep : 0 ≤ keep) :
    ((swaFinalHits C T bs A useEagle keep).Pairwise (· < ·) ∧
      ∀ h, h ∈ swaFinalHits C T bs A useEagle keep ↔
        IsGreatest {h | Checkpoint A (peekOf useEagle bs) (C / bs * bs) h} h ∨
        0 < keep ∧ IsGreatest {h | Checkpoint A (peekOf useEagle bs) (T - keep) h} h ∧
          h + peekOf useEagle bs ≤ C / bs * bs) ∧
    (0 < keep →
      (∀ h, IsGreatest {h | Checkpoint A (peekOf useEagle bs) (T - keep) h} h →
        h + peekOf useEagle bs ≤ C / bs * bs →
        (∀ N, T ≤ N → h + peekOf useEagle bs ≤ N - keep) ∧
        ∀ h', Checkpoint A (peekOf useEagle bs) (C / bs * bs) h' →
          h' + peekOf useEagle bs ≤ T - keep → h' ≤ h) ∧
      ∀ N, T ≤ N →
        C - bestUsable useEagle bs keep N (swaFinalHits C T bs A useEagle keep)
          ≤ keep + peekOf useEagle bs + A + bs) ∧
    ∀ P O N observed keep : ℤ,
      IsGreatest {h | h = observed ∨
          h ∈ swaFinalHits (P + O - 1) (P + O) 64 128 true keep ∧
            h + 64 ≤ if keep = 0 then N - 1 else N - keep}
        (Turns.predictedHit P O N observed keep) := by
  have hne : keep ≠ 0 ↔ 0 < keep := by omega
  refine ⟨⟨pairwise_swaFinalHits, ?_⟩, ?_, Turns.isGreatest_predictedHit⟩
  · intro h
    rw [mem_swaFinalHits hA, hne]
  · intro hpos
    refine ⟨?_, fun N hN => lost_le hbs hA hT hN hpos⟩
    rintro h ⟨⟨-, -, hcap⟩, hmax⟩ -
    constructor
    · intro N hN
      omega
    · rintro h' ⟨hdvd, hlo, -⟩ hcap'
      exact hmax ⟨hdvd, hlo, hcap'⟩

/-- A request that computed nine of ten tokens, in blocks of two. -/
theorem final_checkpoints_best_small :
    9 - bestUsable true 2 1 10 (swaFinalHits 9 10 2 4 true 1) ≤ 1 + 2 + 4 + 2 :=
  ((final_checkpoints_best (by omega) (by omega) true (by omega) (by omega)).2.1
    (by omega)).2 10 (by omega)

/-- Without YOCO the script's cap is `N - 1`: checkpoint 128 with its EAGLE block ends at
192, and a prompt of 192 tokens is not predicted to hit it. -/
theorem predictedHit_leaves_last_token :
    ¬ IsGreatest {h | h = 0 ∨
        h ∈ swaFinalHits (193 + 0 - 1) (193 + 0) 64 128 true 0 ∧ h + 64 ≤ 192 - 0}
      (Turns.predictedHit 193 0 192 0 0) := by
  intro hgreatest
  have hmem : (128 : ℤ) ∈ swaFinalHits (193 + 0 - 1) (193 + 0) 64 128 true 0 := by decide
  have hle : (128 : ℤ) ≤ Turns.predictedHit 193 0 192 0 0 :=
    hgreatest.2 (.inr ⟨hmem, by omega⟩)
  exact absurd hle (by decide)

end SwaFinal
end Dsv41Overlay
