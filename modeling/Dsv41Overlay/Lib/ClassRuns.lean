import Dsv41Overlay.Lib.Rank

/-!
# Cutting sorted classes into runs

Items lie at the places `0, …, n - 1` in the order of their classes. A new run starts at the
first place of each class and `width` places further, as often as the class goes on. A run then
has items of one class only, at most `width` of them (`length_le`), and only the last run of a
class is shorter (`length_of_same`).

The place at which a class begins may be found by counting the items of smaller classes
(`lt_countP_iff`).
-/

namespace Dsv41Overlay

/-- `n` places in the order of their classes; class `c` begins at place `first c`. -/
structure ClassRuns where
  n : ℕ
  width : ℕ
  cls : ℕ → ℕ
  first : ℕ → ℕ
  width_pos : 0 < width
  first_iff : ∀ c i, i < n → (i < first c ↔ cls i < c)

namespace ClassRuns

variable (R : ClassRuns)

/-- A run starts here. -/
def isStart (t : ℕ) : Bool :=
  decide (t < R.n) &&
    (decide (t = 0) || (decide (R.cls (t - 1) ≠ R.cls t) ||
      decide (((t : ℤ) - R.first (R.cls t)).tmod R.width = 0)))

/-- The places at which a run starts. -/
def starts : List ℕ := (List.range R.n).filter R.isStart

/-- How many runs there are. -/
def total : ℕ := R.starts.length

/-- Where run `j` begins, and where the last one ends. -/
def cut (j : ℕ) : ℕ := if j < R.total then rankTable id R.starts (fun _ => 0) j else R.n

variable {R} {i j t : ℕ}

theorem mem_starts : t ∈ R.starts ↔ R.isStart t = true := by
  rw [starts, List.mem_filter, List.mem_range]
  refine ⟨fun h => h.2, fun h => ⟨?_, h⟩⟩
  rw [isStart, Bool.and_eq_true] at h
  exact of_decide_eq_true h.1

theorem lt_of_isStart (h : R.isStart t = true) : t < R.n := by
  rw [isStart, Bool.and_eq_true] at h
  exact of_decide_eq_true h.1

theorem nodup_starts : R.starts.Nodup := List.nodup_range.filter _

theorem starts_inj : ∀ s ∈ R.starts, ∀ t ∈ R.starts, id s = id t → s = t := fun _ _ _ _ h => h

theorem total_le : R.total ≤ R.n := by
  have hle := List.length_filter_le R.isStart (List.range R.n)
  rwa [List.length_range] at hle

/-! ### The cut points -/

theorem cut_total : R.cut R.total = R.n := if_neg (Nat.lt_irrefl _)

theorem cut_of_lt (hj : j < R.total) : R.cut j = rankTable id R.starts (fun _ => 0) j := if_pos hj

theorem isStart_cut (hj : j < R.total) : R.isStart (R.cut j) = true := by
  rw [cut_of_lt hj]
  exact mem_starts.mp (rankTable_mem starts_inj nodup_starts hj)

/-- A start is the cut point of its rank. -/
theorem cut_rank (h : R.isStart t = true) :
    rank id R.starts t < R.total ∧ R.cut (rank id R.starts t) = t := by
  have hmem := mem_starts.mpr h
  have hlt : rank id R.starts t < R.total := rank_lt_length hmem
  exact ⟨hlt, (cut_of_lt hlt).trans (rankTable_rank starts_inj nodup_starts hmem)⟩

theorem cut_lt (hj : j < R.total) : R.cut j < R.n := lt_of_isStart (isStart_cut hj)

variable (R) in
theorem cut_le (j : ℕ) : R.cut j ≤ R.n := by
  rcases Nat.lt_or_ge j R.total with hj | hj
  · exact Nat.le_of_lt (cut_lt hj)
  · exact Nat.le_of_eq (if_neg (Nat.not_lt_of_ge hj))

/-- **Runs are not empty.** -/
theorem cut_lt_cut (hij : i < j) (hj : j ≤ R.total) : R.cut i < R.cut j := by
  rcases Nat.lt_or_eq_of_le hj with hj | rfl
  · rw [cut_of_lt hj, cut_of_lt (Nat.lt_trans hij hj)]
    simpa only [id_eq] using key_rankTable_lt starts_inj nodup_starts (fun _ => 0) hij hj
  · rw [cut_total]
    exact cut_lt hij

theorem cut_zero : R.cut 0 = 0 := by
  rcases Nat.eq_zero_or_pos R.n with h | h
  · have hle := R.cut_le 0
    rw [h] at hle
    exact Nat.le_zero.mp hle
  · have hstart : R.isStart 0 = true := by simp [isStart, h]
    have hrank : rank id R.starts 0 = 0 := List.countP_eq_zero.mpr fun y _ => by simp
    have hcut := (cut_rank hstart).2
    rwa [hrank] at hcut

/-- Between two cut points there is no start. -/
theorem not_isStart_between (hj : j < R.total) (hlo : R.cut j < t) (hhi : t < R.cut (j + 1)) :
    R.isStart t = false := by
  by_contra hstart
  obtain ⟨hr, hcut⟩ := cut_rank (Bool.of_not_eq_false hstart)
  rcases Nat.lt_trichotomy (rank id R.starts t) j with h | h | h
  · have := cut_lt_cut (R := R) h (Nat.le_of_lt hj)
    omega
  · rw [h] at hcut
    omega
  · rcases Nat.lt_or_eq_of_le (show j + 1 ≤ rank id R.starts t from h) with h | h
    · have := cut_lt_cut (R := R) h (Nat.le_of_lt hr)
      omega
    · rw [← h] at hcut
      omega

/-! ### Classes -/

/-- Places are in the order of their classes. -/
theorem cls_mono (hij : i ≤ j) (hj : j < R.n) : R.cls i ≤ R.cls j := by
  by_contra hlt
  have hi : i < R.n := Nat.lt_of_le_of_lt hij hj
  have hfirst := (R.first_iff (R.cls i) j hj).mpr (Nat.lt_of_not_ge hlt)
  exact Nat.lt_irrefl _ ((R.first_iff (R.cls i) i hi).mp (Nat.lt_of_le_of_lt hij hfirst))

theorem first_le (ht : t < R.n) : R.first (R.cls t) ≤ t := by
  by_contra hlt
  exact Nat.lt_irrefl _ ((R.first_iff (R.cls t) t ht).mp (Nat.lt_of_not_ge hlt))

/-- A place that starts no run goes on with the class before it. -/
theorem of_not_isStart (ht : t < R.n) (h : R.isStart t = false) :
    R.cls (t - 1) = R.cls t ∧ ((t : ℤ) - R.first (R.cls t)).tmod R.width ≠ 0 := by
  simp only [isStart, ht, decide_true, Bool.true_and, Bool.or_eq_false_iff,
    decide_eq_false_iff_not, not_not] at h
  exact h.2

/-- A run starts a whole number of widths into its class. -/
theorem dvd_of_isStart (h : R.isStart t = true) : R.width ∣ t - R.first (R.cls t) := by
  have ht := lt_of_isStart h
  have hle := first_le ht
  simp only [isStart, ht, decide_true, Bool.true_and, Bool.or_eq_true, decide_eq_true_eq] at h
  rcases h with rfl | hne | hmod
  · rw [Nat.zero_sub]
    exact Nat.dvd_zero _
  · -- the first place of its class
    rcases Nat.eq_zero_or_pos t with rfl | hpos
    · rw [Nat.zero_sub]
      exact Nat.dvd_zero _
    have hlt : R.cls (t - 1) < R.cls t :=
      Nat.lt_of_le_of_ne (cls_mono (Nat.sub_le t 1) ht) hne
    have := (R.first_iff (R.cls t) (t - 1) (by omega)).mpr hlt
    rw [Nat.sub_eq_zero_of_le (by omega)]
    exact Nat.dvd_zero _
  · rw [← Int.natCast_dvd_natCast, Int.natCast_sub hle]
    exact Int.dvd_of_tmod_eq_zero hmod

/-- **One class**: a run stays with the class of its start. -/
theorem cls_run (hj : j < R.total) {k : ℕ} (hk : R.cut j + k < R.cut (j + 1)) :
    R.cls (R.cut j + k) = R.cls (R.cut j) := by
  induction k with
  | zero => rw [Nat.add_zero]
  | succ k ih =>
    have hn := R.cut_le (j + 1)
    have hnot := not_isStart_between (t := R.cut j + (k + 1)) hj (by omega) hk
    have hsame := (of_not_isStart (by omega) hnot).1
    exact hsame.symm.trans (ih (by omega))

/-- **A run has at most `width` items**, as `width` places in a row hold a multiple of it. -/
theorem length_le (hj : j < R.total) : R.cut (j + 1) - R.cut j ≤ R.width := by
  by_contra hlong
  have hn := R.cut_le (j + 1)
  have hw := R.width_pos
  obtain ⟨q, hq⟩ := dvd_of_isStart (isStart_cut hj)
  have hfirst := first_le (cut_lt hj)
  -- the next multiple lies inside the run
  have hcls := cls_run hj (k := R.width) (by omega)
  have hnot := not_isStart_between (t := R.cut j + R.width) hj (by omega) (by omega)
  refine (of_not_isStart (by omega) hnot).2 ?_
  rw [hcls]
  refine Int.tmod_eq_zero_of_dvd ⟨q + 1, ?_⟩
  have hcast : ((R.cut j - R.first (R.cls (R.cut j)) : ℕ) : ℤ) = (R.width * q : ℕ) :=
    congrArg _ hq
  rw [Int.natCast_sub hfirst, Int.natCast_mul] at hcast
  rw [Int.natCast_add, Int.mul_add, Int.mul_one, ← hcast]
  omega

/-- **Full runs**: a run is as long as it can be if the next one goes on with its class. -/
theorem length_of_same (hj : j + 1 < R.total) (hsame : R.cls (R.cut j) = R.cls (R.cut (j + 1))) :
    R.cut (j + 1) - R.cut j = R.width := by
  have hlt : R.cut j < R.cut (j + 1) := cut_lt_cut (Nat.lt_succ_self j) (Nat.le_of_lt hj)
  have hle := length_le (R := R) (Nat.lt_of_succ_lt hj)
  obtain ⟨q, hq⟩ := dvd_of_isStart (isStart_cut (R := R) (Nat.lt_of_succ_lt hj))
  obtain ⟨q', hq'⟩ := dvd_of_isStart (isStart_cut hj)
  have hfirst := first_le (cut_lt (R := R) (Nat.lt_of_succ_lt hj))
  rw [← hsame] at hq'
  -- two multiples, less than two widths apart
  have hdiff : R.cut (j + 1) - R.cut j = R.width * q' - R.width * q := by omega
  rw [← Nat.mul_sub] at hdiff
  refine Nat.le_antisymm hle ?_
  rw [hdiff]
  refine Nat.le_mul_of_pos_right _ (Nat.pos_of_ne_zero fun h0 => ?_)
  rw [h0, Nat.mul_zero] at hdiff
  omega

end ClassRuns

/-! ### Where a class begins -/

/-- In the order of classes, the places of smaller classes are the first ones. -/
theorem lt_countP_iff {n : ℕ} {f : ℕ → ℕ} (hf : ∀ i j, i ≤ j → j < n → f i ≤ f j) (c : ℕ)
    {i : ℕ} (hi : i < n) : i < (List.range n).countP (fun k => f k < c) ↔ f i < c := by
  induction n with
  | zero => exact absurd hi (Nat.not_lt_zero i)
  | succ n ih =>
    have hih := ih (fun i j hij hj => hf i j hij (Nat.lt_succ_of_lt hj))
    have hle : (List.range n).countP (fun k => f k < c) ≤ n := by
      have := List.countP_le_length (l := List.range n) (p := fun k => decide (f k < c))
      rwa [List.length_range] at this
    rw [List.range_succ, List.countP_append, List.countP_singleton]
    rcases Nat.lt_or_eq_of_le (Nat.le_of_lt_succ hi) with h | rfl
    · by_cases hn : f n < c
      · have hlt := Nat.lt_of_le_of_lt (hf i n (Nat.le_of_lt h) (Nat.lt_succ_self n)) hn
        have := (hih h).mpr hlt
        simp only [hn, decide_true, if_true, hlt, iff_true]
        omega
      · simpa only [hn, decide_false, Bool.false_eq_true, if_false, Nat.add_zero] using hih h
    · by_cases hn : f i < c
      · -- then all places before it count
        have hall : (List.range i).countP (fun k => decide (f k < c)) = i := by
          have hlen := List.countP_eq_length (l := List.range i)
            (p := fun k => decide (f k < c))
          rw [List.length_range] at hlen
          refine hlen.mpr fun k hk => decide_eq_true ?_
          have hk := List.mem_range.mp hk
          exact Nat.lt_of_le_of_lt (hf k i (Nat.le_of_lt hk) (Nat.lt_succ_self i)) hn
        simp only [hn, decide_true, if_true, hall, iff_true]
        exact Nat.lt_succ_self i
      · simp only [hn, decide_false, Bool.false_eq_true, if_false, Nat.add_zero, iff_false]
        omega

end Dsv41Overlay
