import Dsv41Overlay.Lib.Launch
import Mathlib.Data.List.Perm.Subperm

/-!
# Ordering by counting

The threads of one block order items without moving them twice: each item counts the
items with a smaller key and is written at that place. On distinct items with
distinct keys the table that results lists every item once (`map_rankTable_perm`), by
increasing key (`key_rankTable_lt`).

The same table, with the items themselves as keys, compacts a list: it is what a
prefix count over flags writes. `foldl_scanStep` is such a count computed by doubling.
Places that start at `0` and do not decrease then cut a range into pieces
(`flatMap_pieces`).
-/

namespace Dsv41Overlay

variable {α : Type*}

/-- How many of `l` have a smaller key than `x`. -/
def rank (key : α → ℕ) (l : List α) (x : α) : ℕ := l.countP fun y => key y < key x

/-- `buf` after every item was written at its rank. -/
def rankTable (key : α → ℕ) (l : List α) (buf : ℕ → α) : ℕ → α :=
  scatterWrite buf (l.map fun x => (rank key l x, x))

section

variable {key : α → ℕ} {l : List α}

theorem rank_le_rank {x y : α} (h : key x ≤ key y) : rank key l x ≤ rank key l y := by
  refine List.countP_mono_left fun z _ hz => ?_
  have hz := of_decide_eq_true hz
  exact decide_eq_true (Nat.lt_of_lt_of_le hz h)

/-- An item counts for the items above it. -/
theorem rank_lt_rank {x y : α} (hx : x ∈ l) (h : key x < key y) : rank key l x < rank key l y := by
  obtain ⟨s, t, rfl⟩ := List.append_of_mem hx
  have hs : rank key s x ≤ rank key s y := rank_le_rank (Nat.le_of_lt h)
  have ht : rank key t x ≤ rank key t y := rank_le_rank (Nat.le_of_lt h)
  simp only [rank] at hs ht
  simp only [rank, List.countP_append, List.countP_cons, Nat.lt_irrefl, decide_false, h,
    decide_true, Bool.false_eq_true, if_true, if_false]
  omega

theorem rank_lt_length {x : α} (hx : x ∈ l) : rank key l x < l.length := by
  obtain ⟨s, t, rfl⟩ := List.append_of_mem hx
  have hs : s.countP (fun y => key y < key x) ≤ s.length := List.countP_le_length
  have ht : t.countP (fun y => key y < key x) ≤ t.length := List.countP_le_length
  simp only [rank, List.countP_append, List.countP_cons, Nat.lt_irrefl, decide_false,
    Bool.false_eq_true, if_false, List.length_append, List.length_cons]
  omega

variable (hkey : ∀ x ∈ l, ∀ y ∈ l, key x = key y → x = y)

include hkey in
theorem rank_inj {x y : α} (hx : x ∈ l) (hy : y ∈ l) (h : rank key l x = rank key l y) : x = y := by
  rcases Nat.lt_trichotomy (key x) (key y) with hlt | heq | hlt
  · have := rank_lt_rank hx hlt
    omega
  · exact hkey x hx y hy heq
  · have := rank_lt_rank hy hlt
    omega

variable (hl : l.Nodup)

include hkey hl

/-- Distinct items have all the ranks there are. -/
theorem map_rank_perm : (l.map (rank key l)).Perm (List.range l.length) := by
  have hnd : (l.map (rank key l)).Nodup :=
    (List.nodup_map_iff_inj_on hl).mpr fun x hx y hy h => rank_inj hkey hx hy h
  have hsub : l.map (rank key l) ⊆ List.range l.length := by
    intro r hr
    obtain ⟨x, hx, rfl⟩ := List.mem_map.mp hr
    exact List.mem_range.mpr (rank_lt_length hx)
  refine (List.subperm_of_subset hnd hsub).perm_of_length_le ?_
  rw [List.length_range, List.length_map]

variable {buf : ℕ → α}

theorem rankTable_rank {x : α} (hx : x ∈ l) : rankTable key l buf (rank key l x) = x := by
  refine scatterWrite_of_mem ?_ (List.mem_map.mpr ⟨x, hx, rfl⟩)
  rw [List.map_map]
  exact (map_rank_perm hkey hl).nodup_iff.mpr List.nodup_range

variable (buf) in
/-- Every place below the number of items holds the item of that rank. -/
theorem exists_rank {i : ℕ} (hi : i < l.length) :
    ∃ x ∈ l, rank key l x = i ∧ rankTable key l buf i = x := by
  have hmem := (map_rank_perm hkey hl).mem_iff.mpr (List.mem_range.mpr hi)
  obtain ⟨x, hx, rfl⟩ := List.mem_map.mp hmem
  exact ⟨x, hx, rfl, rankTable_rank hkey hl hx⟩

theorem rankTable_mem {i : ℕ} (hi : i < l.length) : rankTable key l buf i ∈ l := by
  obtain ⟨x, hx, -, htable⟩ := exists_rank hkey hl buf hi
  rwa [htable]

/-- **The table holds every item once.** -/
theorem map_rankTable_perm : ((List.range l.length).map (rankTable key l buf)).Perm l := by
  have hitems : (l.map (rank key l)).map (rankTable key l buf) = l := by
    rw [List.map_map]
    exact (List.map_congr_left fun x hx => rankTable_rank hkey hl hx).trans (List.map_id' l)
  calc ((List.range l.length).map (rankTable key l buf))
      |>.Perm ((l.map (rank key l)).map (rankTable key l buf)) :=
        ((map_rank_perm hkey hl).map _).symm
    _ = l := hitems

variable (buf) in
/-- **The table is ordered by key.** -/
theorem key_rankTable_lt {i j : ℕ} (hij : i < j) (hj : j < l.length) :
    key (rankTable key l buf i) < key (rankTable key l buf j) := by
  obtain ⟨x, hx, rfl, hxi⟩ := exists_rank hkey hl buf (Nat.lt_trans hij hj)
  obtain ⟨y, hy, rfl, hyj⟩ := exists_rank hkey hl buf hj
  rw [hxi, hyj]
  by_contra hge
  have := rank_le_rank (l := l) (Nat.le_of_not_lt hge)
  omega

omit hkey hl in
theorem foldl_max_le {f : α → ℕ} {m : List α} {a M : ℕ} (ha : a ≤ M) (h : ∀ x ∈ m, f x ≤ M) :
    m.foldl (fun n x => max n (f x)) a ≤ M := by
  induction m generalizing a with
  | nil => exact ha
  | cons x m ih =>
    exact ih (Nat.max_le.mpr ⟨ha, h x List.mem_cons_self⟩) fun y hy =>
      h y (List.mem_cons_of_mem _ hy)

omit hkey hl in
theorem le_foldl_max {f : α → ℕ} {m : List α} {x : α} (hx : x ∈ m) (a : ℕ) :
    f x ≤ m.foldl (fun n x => max n (f x)) a := by
  have hstart : ∀ (m : List α) (a : ℕ), a ≤ m.foldl (fun n x => max n (f x)) a := by
    intro m
    induction m with
    | nil => exact fun a => Nat.le_refl a
    | cons y m ih => exact fun a => Nat.le_trans (Nat.le_max_left a (f y)) (ih _)
  induction m generalizing a with
  | nil => exact absurd hx List.not_mem_nil
  | cons y m ih =>
    rcases List.mem_cons.mp hx with rfl | hx
    · exact Nat.le_trans (Nat.le_max_right a (f x)) (hstart m _)
    · exact ih hx _

/-- The largest rank counts the items. -/
theorem foldl_max_rank : l.foldl (fun n x => max n (rank key l x + 1)) 0 = l.length := by
  refine Nat.le_antisymm (foldl_max_le (Nat.zero_le _) fun x hx => rank_lt_length hx) ?_
  rcases Nat.eq_zero_or_pos l.length with h | h
  · rw [h]
    exact Nat.zero_le _
  · obtain ⟨x, hx, hrank, -⟩ := exists_rank hkey hl (fun _ => l[0]) (Nat.sub_lt h Nat.one_pos)
    have hle := le_foldl_max (f := fun x => rank key l x + 1) hx 0
    omega

end

/-- A prefix count of flags is a rank among the flagged places. -/
theorem rank_filter_range (p : ℕ → Bool) {n t : ℕ} (h : t ≤ n) :
    rank id ((List.range n).filter p) t = (List.range t).countP p := by
  obtain ⟨m, rfl⟩ := Nat.exists_eq_add_of_le h
  have hlow : (List.range t).countP (fun y => decide (y < t) && p y) = (List.range t).countP p := by
    refine List.countP_congr fun y hy => ?_
    rw [decide_eq_true (List.mem_range.mp hy), Bool.true_and]
  have hhigh : ((List.range m).map (t + ·)).countP (fun y => decide (y < t) && p y) = 0 := by
    refine List.countP_eq_zero.mpr fun y hy => ?_
    obtain ⟨i, -, rfl⟩ := List.mem_map.mp hy
    simp
  calc rank id ((List.range (t + m)).filter p) t
      = (List.range (t + m)).countP (fun y => decide (y < t) && p y) := List.countP_filter
    _ = (List.range t).countP p := by
      rw [List.range_add, List.countP_append, hlow, hhigh, Nat.add_zero]

theorem prefixSum_toNat (p : ℕ → Bool) (n : ℕ) :
    prefixSum (fun i => (p i).toNat) n = (List.range n).countP p := by
  induction n with
  | zero => rfl
  | succ n ih =>
    rw [prefixSum_succ, ih, List.range_succ, List.countP_append, List.countP_singleton]
    cases p n <;> rfl

/-! ### Prefix counts by doubling -/

/-- One step of a scan: every place from `o` on adds the value `o` places before it. -/
def scanStep (v : ℕ → ℕ) (o : ℕ) : ℕ → ℕ := fun i => if o ≤ i then v i + v (i - o) else v i

/-- Place `i` holds the sum of the last `w` values up to `i`. -/
def windowSum (f : ℕ → ℕ) (w i : ℕ) : ℕ := prefixSum f (i + 1) - prefixSum f (i + 1 - w)

theorem windowSum_one (f : ℕ → ℕ) : windowSum f 1 = f := by
  funext i
  rw [windowSum, prefixSum_succ, Nat.add_sub_cancel]
  exact Nat.add_sub_cancel_left ..

/-- A step doubles the window. -/
theorem scanStep_windowSum (f : ℕ → ℕ) (w : ℕ) :
    scanStep (windowSum f w) w = windowSum f (2 * w) := by
  funext i
  simp only [scanStep, windowSum]
  by_cases h : w ≤ i
  · have hmid : i - w + 1 = i + 1 - w := by omega
    have hlow : i + 1 - w - w = i + 1 - 2 * w := by omega
    have h₁ := prefixSum_le_prefixSum f (show i + 1 - 2 * w ≤ i + 1 - w by omega)
    have h₂ := prefixSum_le_prefixSum f (show i + 1 - w ≤ i + 1 by omega)
    rw [if_pos h, hmid, hlow]
    omega
  · have hw : i + 1 - w = 0 := by omega
    have hw' : i + 1 - 2 * w = 0 := by omega
    rw [if_neg h, hw, hw']

/-- **A scan by doubling** sums everything up to each place, as far as the window reaches. -/
theorem foldl_scanStep (f : ℕ → ℕ) (k : ℕ) :
    ((List.range k).map (2 ^ ·)).foldl scanStep f = windowSum f (2 ^ k) := by
  induction k with
  | zero => exact (windowSum_one f).symm
  | succ k ih =>
    rw [List.range_succ, List.map_append, List.foldl_append, ih, Nat.pow_succ, Nat.mul_comm]
    exact scanStep_windowSum f (2 ^ k)

theorem windowSum_of_lt (f : ℕ → ℕ) {w i : ℕ} (h : i < w) :
    windowSum f w i = prefixSum f (i + 1) := by
  rw [windowSum, Nat.sub_eq_zero_of_le h]
  exact Nat.sub_zero _

/-- Sums of blocks of `w` places. -/
theorem prefixSum_add (f : ℕ → ℕ) (m n : ℕ) :
    prefixSum f (m + n) = prefixSum f m + prefixSum (fun i => f (m + i)) n := by
  simp only [prefixSum, List.range_add, List.map_append, List.sum_append, List.map_map]
  rfl

theorem prefixSum_blocks (f : ℕ → ℕ) (w k : ℕ) :
    prefixSum (fun b => prefixSum (fun i => f (b * w + i)) w) k = prefixSum f (k * w) := by
  induction k with
  | zero => simp
  | succ k ih => rw [prefixSum_succ, ih, Nat.succ_mul, prefixSum_add f (k * w) w]

/-- **Pieces**: cut points that start at `0` and do not decrease cut the range below the
last of them. -/
theorem flatMap_pieces {b : ℕ → ℕ} (h₀ : b 0 = 0) {k : ℕ} (hb : ∀ j < k, b j ≤ b (j + 1)) :
    ((List.range k).flatMap fun j => (List.range (b (j + 1) - b j)).map (b j + ·)) =
      List.range (b k) := by
  induction k with
  | zero => simp [h₀]
  | succ k ih =>
    have hlast : b k + (b (k + 1) - b k) = b (k + 1) :=
      Nat.add_sub_cancel' (hb k (Nat.lt_succ_self k))
    calc ((List.range (k + 1)).flatMap fun j => (List.range (b (j + 1) - b j)).map (b j + ·))
        = List.range (b k) ++ (List.range (b (k + 1) - b k)).map (b k + ·) := by
          rw [List.range_succ, List.flatMap_append, List.flatMap_singleton,
            ih fun j hj => hb j (Nat.lt_succ_of_lt hj)]
      _ = List.range (b (k + 1)) := by rw [← List.range_add, hlast]

end Dsv41Overlay
