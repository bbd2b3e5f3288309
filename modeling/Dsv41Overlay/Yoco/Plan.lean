import Dsv41Overlay.Lib.Segments
import Mathlib.Data.List.GetD

/-!
# The row plan of a truncated prefill step

`overlay/dsv41_yoco.py` runs the decoder layers of a prefill on the last `KEEP`
positions only. `buildKeepPlan` is the row selection of one step: which rows of
the flat batch the decoder keeps, how the kept rows are delimited per request
(`compactQsl`), the lowest sliding-window position each kept row may see, and
which kept rows are placeholders.

The loop over the requests only appends, so the finished plan is read off
segment by segment: `buildKeepPlan_eq` gives every array of the plan in closed
form over `rowPlan`, the body of the loop for one request. The facts the
callers need about one request are `rowPlan_first_lt` (something is kept),
`rowPlan_of_before` and `rowPlan_of_reaching` (what is kept) and `rowPlan_lb_le`
(a kept row that is not a placeholder lies at or above its lower bound).
-/

namespace Dsv41Overlay
namespace Yoco

/-- `KEEP >= window + max backtracking`, with backtracking = spec tokens + 1. -/
def minKeepTokens (window numSpeculativeTokens : ℕ) : ℕ :=
  window + numSpeculativeTokens + 1

/-- The cap on a prefix-cache hit: the whole rectangle `[N - KEEP, N)` is
recomputed. `max(0, ·)` is the truncated subtraction. -/
def maxCacheHitLength (numTokens keep : ℕ) : ℕ := numTokens - max keep 1

/-- The loop variables of `build_keep_plan` for one request. -/
structure RowPlan where
  /-- Lowest visible SWA position (`0` = none). -/
  lb : ℕ
  /-- First kept row, counted from the request's first row. -/
  first : ℕ
  placeholder : Bool
  needed : Bool
deriving Repr, DecidableEq

/-- The loop body of `build_keep_plan` for a request with `n` scheduled rows. -/
def rowPlan (keep startPos prefillLen : ℕ) (isPrefilling : Bool) (n : ℕ) : RowPlan :=
  if isPrefilling && decide (keep < prefillLen) then
    let lb := prefillLen - keep
    -- the rows before the rectangle are dropped
    let first := min (lb - startPos) n
    -- a chunk that ends before the rectangle keeps its last row alive
    if first = n then ⟨lb, n - 1, true, true⟩ else ⟨lb, first, false, true⟩
  else ⟨0, 0, false, false⟩

/-- The plan of one step. -/
structure KeepPlan where
  /-- Kept rows of the full batch. -/
  keepIdx : List ℕ
  /-- Prefix sums of the kept rows per request. -/
  compactQsl : List ℕ
  /-- Lowest visible SWA position of each kept row. -/
  lowerBound : List ℕ
  /-- Rows kept only to keep their request alive. -/
  placeholder : List Bool
  /-- Some prefilling request has `prefill_len > KEEP`. -/
  needed : Bool
deriving Repr, DecidableEq

/-- The per-request arrays `build_keep_plan` reads, as `attach` slices them from
the input batch. -/
structure BatchArrays where
  queryStartLoc : List ℕ
  startPos : List ℕ
  prefillLen : List ℕ
  isPrefilling : List Bool

namespace BatchArrays

variable (b : BatchArrays) (keep r : ℕ)

/-- The number of scheduled rows of request `r`. -/
def numRows : ℕ := b.queryStartLoc.getD (r + 1) 0 - b.queryStartLoc.getD r 0

/-- `rowPlan` at request `r`. -/
def rowPlan : RowPlan :=
  Yoco.rowPlan keep (b.startPos.getD r 0) (b.prefillLen.getD r 0) (b.isPrefilling.getD r false)
    (b.numRows r)

/-- `np.arange(q0 + first, q1)`: the rows of request `r` the plan keeps. -/
def kept : List ℕ :=
  List.range' (b.queryStartLoc.getD r 0 + (b.rowPlan keep r).first)
    (b.numRows r - (b.rowPlan keep r).first)

end BatchArrays

/-- One iteration of the loop of `build_keep_plan`. -/
def keepPlanStep (b : BatchArrays) (keep : ℕ) (p : KeepPlan) (r : ℕ) : Except String KeepPlan :=
  -- the source asserts that a scheduled request has a row
  if b.numRows r = 0 then .error "every scheduled request has >= 1 row"
  else
    let d := b.rowPlan keep r
    let kept := b.kept keep r
    .ok {
      keepIdx := p.keepIdx ++ kept
      compactQsl := p.compactQsl ++ [p.compactQsl.getLastD 0 + kept.length]
      lowerBound := p.lowerBound ++ List.replicate kept.length d.lb
      placeholder := p.placeholder ++ List.replicate kept.length d.placeholder
      needed := p.needed || d.needed }

/-- Rows the decoder runs this step. -/
def buildKeepPlan (b : BatchArrays) (keep : ℕ) : Except String KeepPlan :=
  (List.range (b.queryStartLoc.length - 1)).foldlM (keepPlanStep b keep)
    ⟨[], [0], [], [], false⟩

/-! ### One request -/

section RowPlan

variable {keep startPos prefillLen n : ℕ} {isPrefilling : Bool}

/-- A request with a row keeps a row. -/
theorem rowPlan_first_lt (hn : 0 < n) :
    (rowPlan keep startPos prefillLen isPrefilling n).first < n := by
  unfold rowPlan
  split
  · dsimp only
    split <;> dsimp only <;> omega
  · exact hn

/-- Truncation is needed exactly for a prefill longer than `KEEP`. -/
theorem rowPlan_needed :
    (rowPlan keep startPos prefillLen isPrefilling n).needed
      = (isPrefilling && decide (keep < prefillLen)) := by
  unfold rowPlan
  split
  · next h => dsimp only; split <;> exact h.symm
  · next h => simpa using h

/-- A decoding request, or one with `prefill_len <= KEEP`, keeps every row and
has no lower bound. -/
theorem rowPlan_of_not_needed (h : ¬(isPrefilling = true ∧ keep < prefillLen)) :
    rowPlan keep startPos prefillLen isPrefilling n = ⟨0, 0, false, false⟩ := by
  unfold rowPlan
  rw [if_neg (by simpa using h)]

/-- A chunk wholly before the rectangle keeps its last row as a placeholder. -/
theorem rowPlan_of_before (hp : isPrefilling = true) (hk : keep < prefillLen)
    (h : startPos + n ≤ prefillLen - keep) :
    rowPlan keep startPos prefillLen isPrefilling n = ⟨prefillLen - keep, n - 1, true, true⟩ := by
  unfold rowPlan
  rw [if_pos (by simp [hp, hk])]
  dsimp only
  rw [if_pos (by omega)]

/-- A chunk that reaches the rectangle keeps exactly its rows inside it. -/
theorem rowPlan_of_reaching (hn : 0 < n) (hp : isPrefilling = true) (hk : keep < prefillLen)
    (h : prefillLen - keep < startPos + n) :
    rowPlan keep startPos prefillLen isPrefilling n
      = ⟨prefillLen - keep, prefillLen - keep - startPos, false, true⟩ := by
  unfold rowPlan
  rw [if_pos (by simp [hp, hk])]
  dsimp only
  rw [if_neg (by omega), Nat.min_eq_left (by omega)]

/-- A kept row that is not a placeholder lies at or above the lower bound. -/
theorem rowPlan_lb_le (hn : 0 < n)
    (h : (rowPlan keep startPos prefillLen isPrefilling n).placeholder = false) :
    (rowPlan keep startPos prefillLen isPrefilling n).lb
      ≤ startPos + (rowPlan keep startPos prefillLen isPrefilling n).first := by
  -- the chunk reaches the rectangle, ends before it, or the prefill is not truncated
  by_cases hc : isPrefilling = true ∧ keep < prefillLen
  · by_cases hr : prefillLen - keep < startPos + n
    · rw [rowPlan_of_reaching hn hc.1 hc.2 hr]
      dsimp only
      omega
    · rw [rowPlan_of_before hc.1 hc.2 (by omega)] at h
      simp at h
  · rw [rowPlan_of_not_needed hc]
    simp

/-- A dropped row lies below the lower bound. -/
theorem lt_rowPlan_lb (hn : 0 < n) {t : ℕ}
    (h : t < (rowPlan keep startPos prefillLen isPrefilling n).first) :
    startPos + t < (rowPlan keep startPos prefillLen isPrefilling n).lb := by
  -- the same cases; only a truncated prefill drops rows
  by_cases hc : isPrefilling = true ∧ keep < prefillLen
  · by_cases hr : prefillLen - keep < startPos + n
    · rw [rowPlan_of_reaching hn hc.1 hc.2 hr] at h ⊢
      dsimp only at h ⊢
      omega
    · rw [rowPlan_of_before hc.1 hc.2 (by omega)] at h ⊢
      dsimp only at h ⊢
      omega
  · rw [rowPlan_of_not_needed hc] at h
    simp at h

end RowPlan

/-! ### The whole plan -/

section KeepPlan

variable {b : BatchArrays} {keep : ℕ}

/-- The arrays of the plan after the first `n` requests, in closed form. -/
def keepPlanUpTo (b : BatchArrays) (keep n : ℕ) : KeepPlan where
  keepIdx := (List.range n).flatMap (b.kept keep)
  compactQsl := (List.range (n + 1)).map (prefixSum fun r => (b.kept keep r).length)
  lowerBound := (List.range n).flatMap fun r =>
    List.replicate (b.kept keep r).length (b.rowPlan keep r).lb
  placeholder := (List.range n).flatMap fun r =>
    List.replicate (b.kept keep r).length (b.rowPlan keep r).placeholder
  needed := (List.range n).any fun r => (b.rowPlan keep r).needed

/-- One iteration extends the closed form by one request. -/
theorem keepPlanStep_upTo {n : ℕ} (hn : 0 < b.numRows n) :
    keepPlanStep b keep (keepPlanUpTo b keep n) n = .ok (keepPlanUpTo b keep (n + 1)) := by
  -- the running total the loop reads back is the last prefix sum
  have hlast : (keepPlanUpTo b keep n).compactQsl.getLastD 0
      = prefixSum (fun r => (b.kept keep r).length) n := by
    simp [keepPlanUpTo, List.range_succ]
  unfold keepPlanStep
  rw [if_neg (by omega), hlast]
  simp [keepPlanUpTo, List.range_succ]

/-- **The plan in closed form.** When every scheduled request has a row, the loop
ends with the arrays of all requests, concatenated in order. -/
theorem buildKeepPlan_eq (h : ∀ r < b.queryStartLoc.length - 1, 0 < b.numRows r) :
    buildKeepPlan b keep = .ok (keepPlanUpTo b keep (b.queryStartLoc.length - 1)) := by
  have key : ∀ n ≤ b.queryStartLoc.length - 1,
      (List.range n).foldlM (keepPlanStep b keep) (⟨[], [0], [], [], false⟩ : KeepPlan)
        = .ok (keepPlanUpTo b keep n) := by
    -- induction on the number of requests the loop has done
    intro n
    induction n with
    | zero => intro _; simp [keepPlanUpTo]; rfl
    | succ n ih =>
      intro hn
      rw [List.range_succ, List.foldlM_append, ih (by omega)]
      change (List.foldlM (keepPlanStep b keep) (keepPlanUpTo b keep n) [n]) = _
      rw [List.foldlM_cons, keepPlanStep_upTo (h n (by omega))]
      rfl
  exact key _ le_rfl

end KeepPlan

end Yoco
end Dsv41Overlay
