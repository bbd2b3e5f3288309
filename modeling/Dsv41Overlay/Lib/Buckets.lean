import Dsv41Overlay.Lib.Segments
import Dsv41Overlay.Lib.Bytes
import Mathlib.Data.List.Flatten
import Mathlib.Data.List.GetD
import Mathlib.Data.List.Nodup
import Mathlib.Data.List.Perm.Basic

/-!
# Buckets of a sorted buffer

Rows sorted by an integer key lie in one buffer, bucket after bucket. The table
of bucket sizes is then enough to find them: the exclusive prefix sums say where
a bucket starts, and the number of inclusive prefix sums at or below a position
says which bucket the position is in (`searchsorted_cumsum`). A buffer is also
walked tile by tile (`flatMap_slice_tiles`) or gathered through a list of
indices (`gather`).
-/

namespace Dsv41Overlay

variable {α β κ : Type*}

/-! ### Fibers of a key -/

/-- A list is its fibers over any list of distinct keys that covers it. -/
theorem flatMap_filter_perm [DecidableEq κ] (key : α → κ) {keys : List κ} (hkeys : keys.Nodup)
    {l : List α} (h : ∀ x ∈ l, key x ∈ keys) :
    (keys.flatMap fun k => l.filter (key · = k)).Perm l := by
  induction keys generalizing l with
  | nil =>
    rw [List.eq_nil_iff_forall_not_mem.mpr fun x hx => List.not_mem_nil (h x hx)]
    rfl
  | cons k keys ih =>
    obtain ⟨hk, hnd⟩ := List.nodup_cons.mp hkeys
    -- what is left after the first fiber has the same later fibers
    have hrest : ∀ k' ∈ keys,
        (l.filter fun x => !decide (key x = k)).filter (key · = k') = l.filter (key · = k') := by
      intro k' hk'
      have hne : k' ≠ k := fun h => hk (h ▸ hk')
      rw [List.filter_filter]
      refine List.filter_congr fun x _ => ?_
      by_cases hx : key x = k'
      · simp [hx, hne]
      · simp [hx]
    have hcover : ∀ x ∈ l.filter fun x => !decide (key x = k), key x ∈ keys := by
      intro x hx
      obtain ⟨hxl, hne⟩ := List.mem_filter.mp hx
      refine (List.mem_cons.mp (h x hxl)).resolve_left ?_
      simpa using hne
    have hflat : (keys.flatMap fun k' => l.filter (key · = k')) =
        keys.flatMap fun k' => (l.filter fun x => !decide (key x = k)).filter (key · = k') :=
      List.flatMap_congr fun k' hk' => (hrest k' hk').symm
    rw [List.flatMap_cons, hflat]
    exact ((ih hnd hcover).append_left _).trans (List.filter_append_perm _ l)

/-- A sorted list is the part below a bound followed by the part from it on. -/
theorem filter_lt_append_of_sorted {key : α → ℕ} {l : List α}
    (hs : l.Pairwise fun x y => key x ≤ key y) (n : ℕ) :
    (l.filter (key · < n)) ++ (l.filter fun x => !decide (key x < n)) = l := by
  induction l with
  | nil => rfl
  | cons x l ih =>
    obtain ⟨hx, hl⟩ := List.pairwise_cons.mp hs
    by_cases hlt : key x < n
    · simp only [List.filter_cons, hlt, decide_true, if_true, Bool.not_true, Bool.false_eq_true,
        if_false, List.cons_append]
      rw [ih hl]
    · -- nothing after `x` is below the bound either
      have hnone : ∀ y ∈ x :: l, ¬ key y < n := by
        intro y hy
        rcases List.mem_cons.mp hy with rfl | hy
        · exact hlt
        · have := hx y hy
          omega
      rw [List.filter_eq_nil_iff.mpr (by simpa using hnone), List.nil_append,
        List.filter_eq_self.mpr (by simpa using hnone)]

/-- **A sorted list is its buckets in order.** -/
theorem flatMap_filter_of_sorted {key : α → ℕ} {l : List α}
    (hs : l.Pairwise fun x y => key x ≤ key y) {n : ℕ} (h : ∀ x ∈ l, key x < n) :
    ((List.range n).flatMap fun e => l.filter (key · = e)) = l := by
  induction n generalizing l with
  | zero =>
    rw [List.eq_nil_iff_forall_not_mem.mpr fun x hx => Nat.not_lt_zero _ (h x hx)]
    rfl
  | succ n ih =>
    have hlow := ih (l := l.filter (key · < n)) (hs.sublist List.filter_sublist)
      (by simp)
    have hfib : ∀ e ∈ List.range n,
        (l.filter (key · < n)).filter (key · = e) = l.filter (key · = e) := by
      intro e he
      rw [List.filter_filter]
      refine List.filter_congr fun x _ => ?_
      by_cases hx : key x = e
      · simp [hx, List.mem_range.mp he]
      · simp [hx]
    have hlast : (l.filter fun x => !decide (key x < n)) = l.filter (key · = n) := by
      refine List.filter_congr fun x hx => ?_
      have := h x hx
      by_cases hxn : key x = n
      · simp [hxn]
      · simp [hxn]
        omega
    calc ((List.range (n + 1)).flatMap fun e => l.filter (key · = e))
        = ((List.range n).flatMap fun e => l.filter (key · = e)) ++ l.filter (key · = n) := by
          simp [List.range_succ]
      _ = l.filter (key · < n) ++ l.filter fun x => !decide (key x < n) := by
          rw [← List.flatMap_congr hfib, hlow, hlast]
      _ = l := filter_lt_append_of_sorted hs n

/-- Two nested walks may be exchanged. -/
theorem flatMap_flatMap_perm (l : List α) (m : List β) (f : α → β → List κ) :
    (l.flatMap fun a => m.flatMap (f a)).Perm (m.flatMap fun b => l.flatMap fun a => f a b) := by
  induction l with
  | nil => simp
  | cons a l ih =>
    calc ((a :: l).flatMap fun a => m.flatMap (f a))
        = m.flatMap (f a) ++ l.flatMap fun a => m.flatMap (f a) := List.flatMap_cons
      _ |>.Perm (m.flatMap (f a) ++ m.flatMap fun b => l.flatMap fun a => f a b) :=
        ih.append_left _
      _ |>.Perm (m.flatMap fun b => f a b ++ l.flatMap fun a => f a b) :=
        List.flatMap_append_perm m _ _

/-! ### Prefix sums of a table of sizes -/

/-- Entry `e` of a table of sizes, `0` past its end. -/
def entry (l : List ℕ) (e : ℕ) : ℕ := l.getD e 0

/-- The inclusive prefix sums of a table. -/
def cumsum (l : List ℕ) : List ℕ := (List.range l.length).map fun e => (l.take (e + 1)).sum

/-- The number of entries of a sorted table at or below `v`, which is the index at
which `v` is inserted from the right. -/
def searchsorted (cum : List ℕ) (v : ℕ) : ℕ := cum.countP (· ≤ v)

theorem entry_eq_getElem {l : List ℕ} {e : ℕ} (he : e < l.length) : entry l e = l[e] :=
  List.getD_eq_getElem _ _ he

theorem entry_of_length_le {l : List ℕ} {e : ℕ} (he : l.length ≤ e) : entry l e = 0 :=
  List.getD_eq_default _ _ he

theorem entry_map {f : ℕ → ℕ} {l : List ℕ} {e : ℕ} (he : e < l.length) :
    entry (l.map f) e = f (entry l e) := by
  rw [entry_eq_getElem he, entry_eq_getElem (by simpa using he), List.getElem_map]

theorem entry_range_map {f : ℕ → ℕ} {n e : ℕ} (he : e < n) :
    entry ((List.range n).map f) e = f e := by
  rw [entry_eq_getElem (by simpa using he), List.getElem_map, List.getElem_range]

theorem sum_take_eq_prefixSum (l : List ℕ) (e : ℕ) : (l.take e).sum = prefixSum (entry l) e := by
  induction e with
  | zero => simp
  | succ e ih =>
    rw [prefixSum_succ, ← ih]
    rcases Nat.lt_or_ge e l.length with he | he
    · rw [List.take_succ_eq_append_getElem he, List.sum_append, entry_eq_getElem he]
      simp
    · rw [entry_of_length_le he, List.take_of_length_le he, List.take_of_length_le (by omega),
        Nat.add_zero]

theorem sum_eq_prefixSum (l : List ℕ) : l.sum = prefixSum (entry l) l.length := by
  rw [← sum_take_eq_prefixSum, List.take_length]

@[simp] theorem length_cumsum (l : List ℕ) : (cumsum l).length = l.length := by
  simp [cumsum]

theorem entry_cumsum {l : List ℕ} {e : ℕ} (he : e < l.length) :
    entry (cumsum l) e = prefixSum (entry l) (e + 1) := by
  rw [cumsum, entry_range_map he, sum_take_eq_prefixSum]

theorem countP_lt_range (n e : ℕ) : (List.range n).countP (fun k => decide (k < e)) = min n e := by
  induction n with
  | zero => simp
  | succ n ih =>
    rw [List.range_succ, List.countP_append, ih, List.countP_singleton]
    by_cases hn : n < e
    · rw [if_pos (by simpa using hn)]
      omega
    · rw [if_neg (by simpa using hn)]
      omega

/-- **Which bucket a position is in**: position `t` of bucket `e` has exactly the
`e` earlier bucket ends at or below it. -/
theorem searchsorted_cumsum {l : List ℕ} {e t : ℕ} (he : e < l.length) (ht : t < entry l e) :
    searchsorted (cumsum l) (prefixSum (entry l) e + t) = e := by
  have hbelow : ∀ k, (l.take (k + 1)).sum ≤ prefixSum (entry l) e + t ↔ k < e := by
    intro k
    rw [sum_take_eq_prefixSum]
    constructor
    · intro hk
      by_contra hge
      have hle := prefixSum_le_prefixSum (entry l) (show e + 1 ≤ k + 1 by omega)
      rw [prefixSum_succ] at hle
      omega
    · intro hk
      have hle := prefixSum_le_prefixSum (entry l) (show k + 1 ≤ e by omega)
      omega
  calc searchsorted (cumsum l) (prefixSum (entry l) e + t)
      = (List.range l.length).countP fun k => decide (k < e) := by
        rw [searchsorted, cumsum, List.countP_map]
        exact List.countP_congr fun k _ => by simpa using hbelow k
    _ = e := by rw [countP_lt_range, Nat.min_eq_right he.le]

/-- A position past the last bucket has every bucket end at or below it. -/
theorem searchsorted_cumsum_of_sum_le {l : List ℕ} {v : ℕ} (h : l.sum ≤ v) :
    searchsorted (cumsum l) v = l.length := by
  have hall : ∀ c ∈ cumsum l, decide (c ≤ v) = true := by
    intro c hc
    obtain ⟨e, -, rfl⟩ := List.mem_map.mp hc
    have hsplit : (l.take (e + 1)).sum + (l.drop (e + 1)).sum = l.sum :=
      List.sum_take_add_sum_drop l _
    exact decide_eq_true (by omega)
  rw [searchsorted, List.countP_eq_length.mpr hall, length_cumsum]

/-- The positions of a buffer, bucket after bucket. -/
theorem range_prefixSum (f : ℕ → ℕ) (n : ℕ) :
    List.range (prefixSum f n) =
      (List.range n).flatMap fun e => (List.range (f e)).map (prefixSum f e + ·) := by
  induction n with
  | zero => rfl
  | succ n ih =>
    rw [prefixSum_succ, List.range_add, ih, List.range_succ, List.flatMap_append]
    simp

/-! ### Gathering and slicing a buffer -/

/-- The entries of `l` at the given indices. -/
def gather (l : List α) (idx : List ℕ) : List α := idx.filterMap (l[·]?)

theorem gather_map (f : α → β) (l : List α) (idx : List ℕ) :
    gather (l.map f) idx = (gather l idx).map f := by
  simp [gather, List.map_filterMap]

theorem gather_flatMap (l : List α) (idx : List κ) (f : κ → List ℕ) :
    gather l (idx.flatMap f) = idx.flatMap fun k => gather l (f k) := by
  simp [gather, List.filterMap_flatMap]

/-- A run of consecutive indices gathers a window. -/
theorem gather_run (l : List α) (o n : ℕ) :
    gather l ((List.range n).map (o + ·)) = slice l o n := by
  induction n with
  | zero => simp [gather, slice]
  | succ n ih =>
    have hstep : slice l o (n + 1) = slice l o n ++ (l[o + n]?).toList := by
      rw [slice, List.take_add_one, List.getElem?_drop]
      rfl
    rw [hstep, ← ih, List.range_succ]
    cases h : l[o + n]? <;> simp [gather, h]

theorem gather_range (l : List α) : gather l (List.range l.length) = l := by
  have h := gather_run l 0 l.length
  rw [slice_all rfl] at h
  simpa using h

/-- Gathering from a table that is computed index by index. -/
theorem gather_range_map (f : ℕ → α) {n : ℕ} {idx : List ℕ} (h : ∀ i ∈ idx, i < n) :
    gather ((List.range n).map f) idx = idx.map f := by
  have hread : ∀ i ∈ idx, ((List.range n).map f)[i]? = some (f i) := by
    intro i hi
    rw [List.getElem?_map, List.getElem?_range (h i hi)]
    rfl
  rw [gather, List.filterMap_congr hread]
  exact congrFun List.filterMap_eq_map idx

/-- Gathering through a computed list of indices that are all in range. -/
theorem getElem?_gather {l : List α} {idx : List ℕ} (h : ∀ i ∈ idx, i < l.length) (j : ℕ) :
    (gather l idx)[j]? = idx[j]?.bind (l[·]?) := by
  induction idx generalizing j with
  | nil => rfl
  | cons i idx ih =>
    have hi : i < l.length := h i List.mem_cons_self
    have ih := ih fun i hi => h i (List.mem_cons_of_mem _ hi)
    have hcons : gather l (i :: idx) = l[i] :: gather l idx := by
      rw [gather, List.filterMap_cons, List.getElem?_eq_getElem hi]
      rfl
    rw [hcons]
    cases j with
    | zero => simp [hi]
    | succ j => simpa using ih j

/-- A permutation of the indices gathers a permutation of the buffer. -/
theorem gather_perm {l : List α} {idx : List ℕ} (h : idx.Perm (List.range l.length)) :
    (gather l idx).Perm l := by
  have hp := h.filterMap (l[·]?)
  rwa [← gather, ← gather, gather_range] at hp

/-- The window of one segment of a segmented buffer. -/
theorem slice_flatMap_range (f : ℕ → List α) {n e : ℕ} (he : e < n) :
    slice ((List.range n).flatMap f) (prefixSum (fun k => (f k).length) e) (f e).length = f e := by
  have hsplit : List.range n = List.range e ++ (List.range (n - e)).map (e + ·) := by
    rw [← List.range_add, Nat.add_sub_cancel' he.le]
  have hhead : (List.range (n - e)).map (e + ·) =
      e :: (List.range (n - e - 1)).map (e + 1 + ·) := by
    obtain ⟨m, hm⟩ : ∃ m, n - e = m + 1 := ⟨n - e - 1, by omega⟩
    rw [hm, List.range_succ_eq_map, List.map_cons, List.map_map, Nat.add_sub_cancel]
    refine congrArg _ (List.map_congr_left fun k _ => ?_)
    simp only [Function.comp]
    omega
  have h := slice_append_right ((List.range e).flatMap f)
    (f e ++ ((List.range (n - e - 1)).map (e + 1 + ·)).flatMap f) 0 (f e).length
  rw [slice_append_self rfl, Nat.add_zero, length_flatMap_range] at h
  rw [hsplit, hhead, List.flatMap_append, List.flatMap_cons]
  exact h

/-- **Tile by tile**: windows of `T` entries each, the last ones shorter or empty. -/
theorem flatMap_slice_tiles (l : List α) (T k : ℕ) :
    ((List.range k).flatMap fun t => slice l (t * T) T) = l.take (k * T) := by
  induction k with
  | zero => simp
  | succ k ih =>
    rw [List.range_succ, List.flatMap_append, ih, Nat.succ_mul, List.take_add]
    simp [slice]

end Dsv41Overlay
