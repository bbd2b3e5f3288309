import Dsv41Overlay.Experts.Routing

/-!
# The sorted routes

The fused path sorts the routes of a layer by local expert and counts them. Here
are the buffers it builds (`sortRoutes`), what they hold (`slice_tokenSorted`,
`slice_weightSorted`: the window of an expert is its bucket), and the host loop
over an expert's window that the fat tiers share (`overExperts`).
-/

namespace Dsv41Overlay.Experts

variable {S W γ : Type*}

/-! ### Building the buffers -/

/-- `tensor.argsort()`: a permutation of the indices that sorts the keys, in some
order among equal keys. -/
def IsArgsort (argsort : List ℕ → List ℕ) : Prop :=
  ∀ keys, (argsort keys).Perm (List.range keys.length) ∧
    (gather keys (argsort keys)).Pairwise (· ≤ ·)

/-- `token_sorted`, `weight_sorted` and `expert_count`. -/
structure SortedRoutes (W : Type*) where
  tokenSorted : List ℕ
  weightSorted : List W
  expertCount : List ℕ

/-- `arange(tokens).repeat_interleave(topk)`. -/
def flatToken (r : Routing W) : List ℕ :=
  (List.range r.tokens).flatMap fun t => List.replicate r.topk t

/-- The buffers `apply_exl3_fused_moe` builds before it launches anything. `half`
is the rounding of a weight to fp16. -/
def sortRoutes (l : Layer S) (argsort : List ℕ → List ℕ) (half : W → W) (r : Routing W) :
    SortedRoutes W :=
  let locals := r.cells.map (localOf l r)
  let order := argsort locals
  { tokenSorted := gather (flatToken r) order
    weightSorted := gather (r.cells.map fun c => half (r.weight c)) order
    expertCount := (List.range (l.nLocal + 1)).map fun e => locals.count e }

/-- `expert_count[:n_exp]`: the counts without the sentinel bucket. -/
def SortedRoutes.counts (s : SortedRoutes W) (l : Layer S) : List ℕ :=
  s.expertCount.take l.nLocal

/-! ### What they hold -/

section Buckets

variable (l : Layer S) (argsort : List ℕ → List ℕ) (r : Routing W)

/-- The slots in sorted order. -/
def sortedCells : List (ℕ × ℕ) := gather r.cells (argsort (r.cells.map (localOf l r)))

/-- The slots of local expert `e`, in sorted order. -/
def bucket (e : ℕ) : List (ℕ × ℕ) := (sortedCells l argsort r).filter (localOf l r · = e)

variable {l argsort r}

theorem flatToken_eq (r : Routing W) : flatToken r = r.cells.map Prod.fst := by
  rw [flatToken, Routing.cells, List.map_flatMap]
  refine List.flatMap_congr fun t _ => ?_
  rw [List.map_map, eq_comm, List.eq_replicate_iff]
  exact ⟨by simp, by simp⟩

theorem sortedCells_perm (hsort : IsArgsort argsort) : (sortedCells l argsort r).Perm r.cells := by
  have h := (hsort (r.cells.map (localOf l r))).1
  rw [List.length_map] at h
  exact gather_perm h

theorem sortedCells_sorted (hsort : IsArgsort argsort) :
    (sortedCells l argsort r).Pairwise fun c d => localOf l r c ≤ localOf l r d := by
  have h := (hsort (r.cells.map (localOf l r))).2
  rw [gather_map, List.pairwise_map] at h
  exact h

/-- **The sorted slots are the buckets in order**, the sentinel bucket last. -/
theorem flatMap_bucket (hsort : IsArgsort argsort) :
    (List.range (l.nLocal + 1)).flatMap (bucket l argsort r) = sortedCells l argsort r :=
  flatMap_filter_of_sorted (sortedCells_sorted hsort) fun c _ => localOf_lt_succ l r c

theorem tokenSorted_eq (half : W → W) :
    (sortRoutes l argsort half r).tokenSorted = (sortedCells l argsort r).map Prod.fst := by
  show gather (flatToken r) _ = _
  rw [flatToken_eq, gather_map]
  rfl

theorem weightSorted_eq (half : W → W) :
    (sortRoutes l argsort half r).weightSorted =
      (sortedCells l argsort r).map fun c => half (r.weight c) :=
  gather_map _ _ _

theorem entry_expertCount (hsort : IsArgsort argsort) (half : W → W) {e : ℕ}
    (he : e < l.nLocal + 1) :
    entry (sortRoutes l argsort half r).expertCount e = (bucket l argsort r e).length := by
  have hcount : (r.cells.map (localOf l r)).count e =
      (r.cells.filter (localOf l r · = e)).length := by
    rw [List.count, List.countP_map, List.countP_eq_length_filter]
    exact congrArg List.length (List.filter_congr fun c _ => by simp [beq_eq_decide])
  have hperm := ((sortedCells_perm (l := l) (r := r) hsort).filter (localOf l r · = e)).length_eq
  calc entry (sortRoutes l argsort half r).expertCount e
      = (r.cells.map (localOf l r)).count e := entry_range_map he
    _ = (bucket l argsort r e).length := by rw [hcount, ← hperm]; rfl

theorem prefixSum_expertCount (hsort : IsArgsort argsort) (half : W → W) {e : ℕ}
    (he : e ≤ l.nLocal + 1) :
    prefixSum (entry (sortRoutes l argsort half r).expertCount) e =
      prefixSum (fun k => (bucket l argsort r k).length) e :=
  prefixSum_congr fun _ hk => entry_expertCount hsort half (Nat.lt_of_lt_of_le hk he)

/-- The window of an expert in the sorted slots is its bucket. -/
theorem slice_sortedCells (hsort : IsArgsort argsort) {e : ℕ} (he : e < l.nLocal + 1) :
    slice (sortedCells l argsort r) (prefixSum (fun k => (bucket l argsort r k).length) e)
      (bucket l argsort r e).length = bucket l argsort r e := by
  have h := slice_flatMap_range (bucket l argsort r) he
  rwa [flatMap_bucket hsort] at h

theorem length_counts (half : W → W) :
    ((sortRoutes l argsort half r).counts l).length = l.nLocal := by
  simp [SortedRoutes.counts, sortRoutes]

theorem entry_counts (hsort : IsArgsort argsort) (half : W → W) {e : ℕ} (he : e < l.nLocal) :
    entry ((sortRoutes l argsort half r).counts l) e = (bucket l argsort r e).length := by
  have hlen : (sortRoutes l argsort half r).expertCount.length = l.nLocal + 1 := by
    simp [sortRoutes]
  rw [← entry_expertCount hsort half (Nat.lt_succ_of_lt he),
    entry_eq_getElem (by rw [length_counts]; exact he), entry_eq_getElem (by omega)]
  exact List.getElem_take

theorem prefixSum_counts (hsort : IsArgsort argsort) (half : W → W) {e : ℕ} (he : e ≤ l.nLocal) :
    prefixSum (entry ((sortRoutes l argsort half r).counts l)) e =
      prefixSum (fun k => (bucket l argsort r k).length) e :=
  prefixSum_congr fun _ hk => entry_counts hsort half (Nat.lt_of_lt_of_le hk he)

/-- The window of an expert in `token_sorted`. -/
theorem slice_tokenSorted (hsort : IsArgsort argsort) (half : W → W) {e : ℕ}
    (he : e < l.nLocal + 1) :
    slice (sortRoutes l argsort half r).tokenSorted
        (prefixSum (fun k => (bucket l argsort r k).length) e) (bucket l argsort r e).length =
      (bucket l argsort r e).map Prod.fst := by
  rw [tokenSorted_eq, slice_map, slice_sortedCells hsort he]

/-- The window of an expert in `weight_sorted`. -/
theorem slice_weightSorted (hsort : IsArgsort argsort) (half : W → W) {e : ℕ}
    (he : e < l.nLocal + 1) :
    slice (sortRoutes l argsort half r).weightSorted
        (prefixSum (fun k => (bucket l argsort r k).length) e) (bucket l argsort r e).length =
      (bucket l argsort r e).map fun c => half (r.weight c) := by
  rw [weightSorted_eq, slice_map, slice_sortedCells hsort he]

end Buckets

/-! ### Running over the experts' windows -/

/-- The loop of the host over `enumerate(counts)`, with the running offset: `body`
gets the expert, its number of rows and its windows of the two buffers. -/
def overExperts (body : ℕ → ℕ → List ℕ → List W → List γ) (tokens : List ℕ) (weights : List W) :
    ℕ → ℕ → List ℕ → List γ
  | _, _, [] => []
  | e, start, rows :: counts =>
    body e rows (slice tokens start rows) (slice weights start rows) ++
      overExperts body tokens weights (e + 1) (start + rows) counts

/-- What expert `e` adds for its windows of the sorted buffers, row by row. -/
def expertRows (l : Layer S) (e : ℕ) (tokens : List ℕ) (weights : List W) :
    List (Contribution S W) :=
  List.zipWith (routeRow l e) tokens weights

theorem overExperts_eq_from (body : ℕ → ℕ → List ℕ → List W → List γ) (tokens : List ℕ)
    (weights : List W) (f : ℕ → ℕ) (n e : ℕ) :
    overExperts body tokens weights e (prefixSum f e) ((List.range n).map fun k => f (e + k)) =
      (List.range n).flatMap fun k =>
        body (e + k) (f (e + k)) (slice tokens (prefixSum f (e + k)) (f (e + k)))
          (slice weights (prefixSum f (e + k)) (f (e + k))) := by
  induction n generalizing e with
  | zero => rfl
  | succ n ih =>
    -- the loop has moved one expert on, and its offset with it
    have hshift : ∀ k, e + 1 + k = e + (k + 1) := fun k => by omega
    rw [List.range_succ_eq_map, List.map_cons, List.map_map, List.flatMap_cons, List.flatMap_map,
      overExperts, Nat.add_zero, ← prefixSum_succ]
    have := ih (e + 1)
    simp only [hshift] at this
    exact congrArg _ this

/-- **The loop expert by expert**: expert `e` gets the window at its prefix sum. -/
theorem overExperts_eq (body : ℕ → ℕ → List ℕ → List W → List γ) (tokens : List ℕ)
    (weights : List W) (counts : List ℕ) :
    overExperts body tokens weights 0 0 counts =
      (List.range counts.length).flatMap fun e =>
        body e (entry counts e) (slice tokens (prefixSum (entry counts) e) (entry counts e))
          (slice weights (prefixSum (entry counts) e) (entry counts e)) := by
  have hcounts : ((List.range counts.length).map fun k => entry counts (0 + k)) = counts := by
    refine List.ext_getElem (by simp) fun i h₁ h₂ => ?_
    rw [List.getElem_map, List.getElem_range, Nat.zero_add, entry_eq_getElem h₂]
  have h := overExperts_eq_from body tokens weights (entry counts) counts.length 0
  rw [hcounts, prefixSum_zero] at h
  simpa only [Nat.zero_add] using h

/-- **The loop on segmented buffers**: when `counts` are the sizes of the first
segments, expert `e` gets segment `e`. -/
theorem overExperts_segments {κ : Type*} (body : ℕ → ℕ → List ℕ → List W → List γ)
    (seg : ℕ → List κ) (token : κ → ℕ) (weight : κ → W) {counts : List ℕ} {n : ℕ}
    (hn : counts.length ≤ n) (hcounts : ∀ e < counts.length, entry counts e = (seg e).length) :
    overExperts body ((List.range n).flatMap fun e => (seg e).map token)
        ((List.range n).flatMap fun e => (seg e).map weight) 0 0 counts =
      (List.range counts.length).flatMap fun e =>
        body e (seg e).length ((seg e).map token) ((seg e).map weight) := by
  rw [overExperts_eq]
  refine List.flatMap_congr fun e he => ?_
  have he := List.mem_range.mp he
  -- the offset of an expert is the number of rows before it
  have hpre : prefixSum (entry counts) e = prefixSum (fun k => (seg k).length) e :=
    prefixSum_congr fun k hk => hcounts k (Nat.lt_trans hk he)
  have htok := slice_flatMap_range (fun e => (seg e).map token) (Nat.lt_of_lt_of_le he hn)
  have hwt := slice_flatMap_range (fun e => (seg e).map weight) (Nat.lt_of_lt_of_le he hn)
  simp only [List.length_map] at htok hwt
  rw [hcounts e he, hpre, htok, hwt]

section Sorted

variable {l : Layer S} {argsort : List ℕ → List ℕ} {r : Routing W} {half : W → W}

theorem expertRows_map (l : Layer S) (e : ℕ) (cells : List (ℕ × ℕ)) (weight : ℕ × ℕ → W) :
    expertRows l e (cells.map Prod.fst) (cells.map weight) =
      cells.map fun c => routeRow l e c.1 (weight c) := by
  rw [expertRows, List.zipWith_map, List.zipWith_self]

/-- **The loop on the sorted buffers** runs every expert on its bucket. -/
theorem overExperts_sorted (hsort : IsArgsort argsort)
    (body : ℕ → ℕ → List ℕ → List W → List γ) :
    overExperts body (sortRoutes l argsort half r).tokenSorted
        (sortRoutes l argsort half r).weightSorted 0 0 ((sortRoutes l argsort half r).counts l) =
      (List.range l.nLocal).flatMap fun e =>
        body e (bucket l argsort r e).length ((bucket l argsort r e).map Prod.fst)
          ((bucket l argsort r e).map fun c => half (r.weight c)) := by
  have hlen : ((sortRoutes l argsort half r).counts l).length = l.nLocal := length_counts half
  rw [tokenSorted_eq, weightSorted_eq, ← flatMap_bucket hsort, List.map_flatMap,
    List.map_flatMap, overExperts_segments body (bucket l argsort r) _ _ (by omega)
      fun e he => entry_counts hsort half (hlen ▸ he), hlen]

/-- **The buckets hold the routes**: the rows of the experts that satisfy `P`,
bucket by bucket, are the routes to them. -/
theorem buckets_perm (hsort : IsArgsort argsort) (weight : ℕ × ℕ → W) (P : ℕ → Bool) :
    ((List.range l.nLocal).flatMap fun e =>
      if P e then (bucket l argsort r e).map fun c => routeRow l e c.1 (weight c) else []).Perm
      (routes l r weight P) := by
  have hbucket : ∀ e, ∀ c ∈ bucket l argsort r e, localOf l r c = e := fun e c hc =>
    of_decide_eq_true (List.mem_filter.mp hc).2
  -- the bucket of a real expert holds its routes
  have hreal : ∀ e ∈ List.range l.nLocal,
      (if P e then (bucket l argsort r e).map fun c => routeRow l e c.1 (weight c) else []) =
        (bucket l argsort r e).filterMap (routeOf l r weight P) := by
    intro e he
    have he := List.mem_range.mp he
    by_cases hP : P e = true
    · rw [if_pos hP, ← List.filterMap_eq_map]
      refine List.filterMap_congr fun c hc => ?_
      rw [routeOf, hbucket e c hc, if_pos ⟨he, hP⟩]
      rfl
    · rw [if_neg hP, eq_comm, List.filterMap_eq_nil_iff]
      intro c hc
      rw [routeOf, hbucket e c hc, if_neg fun h => hP h.2]
  -- the last bucket is that of the sentinel, which adds nothing
  have hsentinel : (bucket l argsort r l.nLocal).filterMap (routeOf l r weight P) = [] := by
    rw [List.filterMap_eq_nil_iff]
    intro c hc
    rw [routeOf, hbucket _ c hc, if_neg fun h => Nat.lt_irrefl _ h.1]
  have hall : ((List.range l.nLocal).flatMap fun e =>
      (bucket l argsort r e).filterMap (routeOf l r weight P)) =
      (sortedCells l argsort r).filterMap (routeOf l r weight P) := by
    rw [← flatMap_bucket hsort, List.filterMap_flatMap, List.range_succ, List.flatMap_append]
    simp [hsentinel]
  rw [List.flatMap_congr hreal, hall]
  exact (sortedCells_perm hsort).filterMap _

end Sorted

end Dsv41Overlay.Experts
