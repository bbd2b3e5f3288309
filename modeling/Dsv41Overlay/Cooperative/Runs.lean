import Dsv41Overlay.Cooperative.Slots
import Mathlib.Data.List.Flatten
import Mathlib.Tactic.Linarith.Frontend

/-!
# The run table is right

`build_runs` sorts the active slots by counting and cuts the order at every new
expert and after every eighth slot. Here its parts are identified: the order table is
the table of ranks (`shOrder_eq`), the run ids are the ranks of the starts
(`runId_eq`). The runs then hold every active slot once (`runRows_perm`), and each is
a tile of one expert (`readRun_sound`).
-/

namespace Dsv41Overlay.Cooperative

variable {V : Type*} {C : Call V} {buf : ℕ → ℕ} {old : RunTable}

/-! ### The order table -/

theorem shLocal_of_active {t : ℕ} (h : C.isActive t = true) :
    shLocal C t = (slotInfo C t).localId := by
  have hlt := localId_lt h
  have hle := C.experts_le
  have hactive : (slotInfo C t).active = true := h
  rw [shLocal, if_pos hactive]
  exact Int.bmod_eq_of_le (by omega) (by omega)

theorem shLocal_nonneg_iff {t : ℕ} : 0 ≤ shLocal C t ↔ C.isActive t = true := by
  by_cases h : C.isActive t = true
  · rw [shLocal_of_active h]
    exact ⟨fun _ => h, fun _ => Int.natCast_nonneg _⟩
  · have hactive : ¬ (slotInfo C t).active = true := h
    rw [shLocal, if_neg hactive]
    exact ⟨fun h' => absurd h' (by decide), fun h' => absurd h' h⟩

theorem ranked_eq (C : Call V) : ranked C = C.activeSlots := by
  refine List.filter_congr fun t _ => ?_
  rw [Bool.eq_iff_iff, decide_eq_true_eq]
  exact shLocal_nonneg_iff

/-- The key orders by expert first, then by slot. -/
theorem slotKey_eq {t : ℕ} (ht : t < C.slots) :
    slotKey C t = (shLocal C t).toNat * 2 ^ 8 + t := by
  have hlt : t < 2 ^ 8 := Nat.lt_of_lt_of_le ht (Nat.le_trans (slots_le C) (by decide))
  rw [slotKey, ← Nat.shiftLeft_add_eq_or_of_lt hlt, Nat.shiftLeft_eq]

theorem slotKey_inj (C : Call V) :
    ∀ s ∈ C.activeSlots, ∀ t ∈ C.activeSlots, slotKey C s = slotKey C t → s = t := by
  intro s hs t ht h
  have hs := (mem_activeSlots.mp hs).1
  have ht := (mem_activeSlots.mp ht).1
  have := slots_le C
  rw [slotKey_eq hs, slotKey_eq ht] at h
  omega

theorem slotRank_eq (C : Call V) (t : ℕ) :
    slotRank C t = rank (slotKey C) C.activeSlots t := by
  rw [← ranked_eq]
  refine Eq.trans ?_ List.countP_filter.symm
  exact List.countP_congr fun u _ => by rw [Bool.and_comm]

/-- `sh_order` is the active slots by rank. -/
theorem shOrder_eq (C : Call V) (buf : ℕ → ℕ) :
    shOrder C buf = rankTable (slotKey C) C.activeSlots buf := by
  unfold shOrder rankTable
  simp only [ranked_eq, slotRank_eq]

theorem nActive_eq (C : Call V) : nActive C = C.activeSlots.length := by
  unfold nActive
  simp only [ranked_eq, slotRank_eq]
  exact foldl_max_rank (slotKey_inj C) (nodup_activeSlots C)

theorem nActive_le (C : Call V) : nActive C ≤ C.slots := by
  rw [nActive_eq]
  exact length_activeSlots_le C

theorem shOrder_mem {i : ℕ} (hi : i < nActive C) : shOrder C buf i ∈ C.activeSlots := by
  rw [shOrder_eq]
  exact rankTable_mem (slotKey_inj C) (nodup_activeSlots C) (by rwa [← nActive_eq])

theorem map_shOrder_perm (C : Call V) (buf : ℕ → ℕ) :
    ((List.range (nActive C)).map (shOrder C buf)).Perm C.activeSlots := by
  rw [shOrder_eq, nActive_eq]
  exact map_rankTable_perm (slotKey_inj C) (nodup_activeSlots C)

/-! ### The starts -/

theorem mem_starts {t : ℕ} : t ∈ starts C buf ↔ t < nActive C ∧ isStart C buf t = true := by
  have hle : nActive C ≤ 48 := Nat.le_trans (nActive_le C) (slots_le C)
  rw [starts, List.mem_filter, List.mem_range, threads_eq]
  constructor
  · rintro ⟨-, h⟩
    have hlt := h
    rw [isStart, Bool.and_eq_true] at hlt
    exact ⟨of_decide_eq_true hlt.1, h⟩
  · rintro ⟨hlt, h⟩
    exact ⟨by omega, h⟩

theorem nodup_starts (C : Call V) (buf : ℕ → ℕ) : (starts C buf).Nodup := by
  rw [starts]
  exact List.nodup_range.filter _

theorem starts_inj (C : Call V) (buf : ℕ → ℕ) :
    ∀ s ∈ starts C buf, ∀ t ∈ starts C buf, id s = id t → s = t := fun _ _ _ _ h => h

theorem length_starts_le (C : Call V) (buf : ℕ → ℕ) : (starts C buf).length ≤ nActive C := by
  have hsub : starts C buf ⊆ List.range (nActive C) := fun t ht =>
    List.mem_range.mpr (mem_starts.mp ht).1
  have hle := (List.subperm_of_subset (nodup_starts C buf) hsub).length_le
  rwa [List.length_range] at hle

/-- The warp scan sums the flags of the lanes up to its own. -/
theorem warpScan_eq {w lane : ℕ} (h : lane < 32) :
    warpScan C buf w lane = prefixSum (laneFlag C buf w) (lane + 1) := by
  rw [warpScan, foldl_scanStep]
  exact windowSum_of_lt _ h

theorem scanBase_eq (C : Call V) (buf : ℕ → ℕ) (n : ℕ) :
    scanBase C buf n = prefixSum (fun t => (isStart C buf t).toNat) (n * 32) := by
  rw [scanBase, ← prefixSum_blocks]
  exact prefixSum_congr fun w _ => warpScan_eq (by decide)

/-- **A run id counts the starts before it.** -/
theorem runId_eq {t : ℕ} (ht : t < threads) : runId C buf t = rank id (starts C buf) t := by
  -- the lanes of the warp behind the warps before it
  have hmod := Nat.mod_lt t (show 0 < 32 by decide)
  have hdiv : t / 32 * 32 + t % 32 = t := Nat.div_add_mod' t 32
  have hscan : scanBase C buf (t / 32) + warpScan C buf (t / 32) (t % 32) =
      prefixSum (fun t => (isStart C buf t).toNat) (t + 1) := by
    rw [warpScan_eq hmod, scanBase_eq]
    calc prefixSum (fun t => (isStart C buf t).toNat) (t / 32 * 32) +
          prefixSum (laneFlag C buf (t / 32)) (t % 32 + 1)
        = prefixSum (fun t => (isStart C buf t).toNat) (t / 32 * 32 + (t % 32 + 1)) :=
          (prefixSum_add _ _ _).symm
      _ = prefixSum (fun t => (isStart C buf t).toNat) (t + 1) := by rw [← Nat.add_assoc, hdiv]
  -- the flags up to `t`, without its own, are the starts below it
  rw [runId, hscan, prefixSum_succ, Nat.add_sub_cancel, prefixSum_toNat, starts,
    rank_filter_range _ (Nat.le_of_lt ht)]

theorem scanBase_length (C : Call V) (buf : ℕ → ℕ) :
    scanBase C buf 16 = (starts C buf).length := by
  rw [scanBase_eq, prefixSum_toNat, starts, threads_eq, List.countP_eq_length_filter]

theorem nRuns_eq (C : Call V) (buf : ℕ → ℕ) (old : RunTable) :
    (buildRuns C buf old).nRuns = (starts C buf).length := by
  rw [buildRuns, scanBase_length]

/-! ### The cut points -/

theorem runStart_writes (C : Call V) (buf : ℕ → ℕ) (old : RunTable) (j : ℕ) :
    (buildRuns C buf old).runStart j =
      Function.update
        (scatterWrite old.runStart ((starts C buf).map fun t => (runId C buf t, t)))
        (scanBase C buf 16) (nActive C) j := by
  rw [← scatterWrite_concat, buildRuns]

theorem runStart_nRuns (C : Call V) (buf : ℕ → ℕ) (old : RunTable) :
    (buildRuns C buf old).runStart (starts C buf).length = nActive C := by
  rw [runStart_writes, scanBase_length, Function.update_self]

theorem runStart_eq {j : ℕ} (hj : j < (starts C buf).length) :
    (buildRuns C buf old).runStart j = rankTable id (starts C buf) old.runStart j := by
  have hwrites : ((starts C buf).map fun t => (runId C buf t, t)) =
      (starts C buf).map fun t => (rank id (starts C buf) t, t) := by
    refine List.map_congr_left fun t ht => ?_
    rw [runId_eq (List.mem_range.mp (List.mem_filter.mp ht).1)]
  rw [runStart_writes, scanBase_length, Function.update_of_ne (Nat.ne_of_lt hj), hwrites, rankTable]

/-- A cut point is a start. -/
theorem runStart_mem {j : ℕ} (hj : j < (starts C buf).length) :
    (buildRuns C buf old).runStart j ∈ starts C buf := by
  rw [runStart_eq hj]
  exact rankTable_mem (starts_inj C buf) (nodup_starts C buf) hj

variable (old) in
theorem runStart_lt_runStart {i j : ℕ} (hij : i < j) (hj : j ≤ (starts C buf).length) :
    (buildRuns C buf old).runStart i < (buildRuns C buf old).runStart j := by
  rcases Nat.lt_or_eq_of_le hj with hj | hj
  · rw [runStart_eq hj, runStart_eq (Nat.lt_trans hij hj)]
    have hlt := key_rankTable_lt (starts_inj C buf) (nodup_starts C buf) old.runStart hij hj
    simpa only [id_eq] using hlt
  · have hend := runStart_nRuns C buf old
    rw [← hj] at hend
    rw [hend]
    exact (mem_starts.mp (runStart_mem (Nat.lt_of_lt_of_le hij (Nat.le_of_eq hj)))).1

/-- The first active slot starts a run. -/
theorem zero_mem_starts (h : 0 < nActive C) : 0 ∈ starts C buf :=
  mem_starts.mpr ⟨h, by simp [isStart, h]⟩

theorem runStart_zero (C : Call V) (buf : ℕ → ℕ) (old : RunTable) :
    (buildRuns C buf old).runStart 0 = 0 := by
  -- without an active slot there is no run
  rcases Nat.eq_zero_or_pos (nActive C) with h | h
  · have hlen : (starts C buf).length = 0 := by
      have := length_starts_le C buf
      omega
    have hn := runStart_nRuns C buf old
    rwa [hlen, h] at hn
  -- the first start has rank `0`
  · have hmem : 0 ∈ starts C buf := zero_mem_starts h
    have hrank : rank id (starts C buf) 0 = 0 :=
      List.countP_eq_zero.mpr fun y _ => by simp
    have htable : rankTable id (starts C buf) old.runStart (rank id (starts C buf) 0) = 0 :=
      rankTable_rank (starts_inj C buf) (nodup_starts C buf) hmem
    rw [hrank] at htable
    exact (runStart_eq (List.length_pos_of_mem hmem)).trans htable

variable (old) in
/-- Between two cut points there is no start. -/
theorem not_isStart_between {j t : ℕ} (hj : j < (starts C buf).length)
    (hlo : (buildRuns C buf old).runStart j < t)
    (hhi : t < (buildRuns C buf old).runStart (j + 1)) : isStart C buf t = false := by
  -- a start between them would be a cut point of its own
  by_contra hstart
  have hstart := Bool.eq_true_of_not_eq_false hstart
  have hn : t < nActive C := by
    rcases Nat.lt_or_eq_of_le hj with hj | hj
    · exact Nat.lt_trans hhi (mem_starts.mp (runStart_mem hj)).1
    · have hend := runStart_nRuns C buf old
      rw [← hj] at hend
      exact hend ▸ hhi
  have hmem := mem_starts.mpr ⟨hn, hstart⟩
  -- a start is the cut point of its rank, which is not between `j` and `j + 1`
  have hr : rank id (starts C buf) t < (starts C buf).length := rank_lt_length hmem
  have hcut : (buildRuns C buf old).runStart (rank id (starts C buf) t) = t := by
    rw [runStart_eq hr]
    exact rankTable_rank (starts_inj C buf) (nodup_starts C buf) hmem
  -- cut points rise with their rank
  rcases Nat.lt_trichotomy (rank id (starts C buf) t) j with h | h | h
  · have := runStart_lt_runStart old h (Nat.le_of_lt hj)
    omega
  · rw [h] at hcut
    omega
  · rcases Nat.lt_or_eq_of_le (Nat.succ_le_of_lt h) with h | h
    · have hlt := runStart_lt_runStart old h (Nat.le_of_lt hr)
      rw [hcut] at hlt
      exact absurd hhi (Nat.not_lt_of_gt hlt)
    · rw [← h] at hcut
      exact absurd hcut (Nat.ne_of_gt hhi)

/-! ### The runs -/

/-- How many active slots have a smaller expert. -/
def firstOf (C : Call V) (e : ℤ) : ℕ :=
  (List.range C.slots).countP fun u => decide (0 ≤ shLocal C u) && decide (shLocal C u < e)

/-- A place that starts no run goes on with the expert before it, and is not a multiple of
eight into it. -/
theorem of_not_isStart {t : ℕ} (ht : t < nActive C) (h : isStart C buf t = false) :
    shLocal C (shOrder C buf (t - 1)) = shLocal C (shOrder C buf t) ∧
      ((t : ℤ) - firstOf C (shLocal C (shOrder C buf t))).tmod 8 ≠ 0 := by
  simp only [isStart, ht, decide_true, Bool.true_and, Bool.or_eq_false_iff, bne_eq_false_iff_eq,
    decide_eq_false_iff_not] at h
  exact h.2

/-- **One expert**: a run stays with the expert of its start. -/
theorem shLocal_run {j : ℕ} (hj : j < (starts C buf).length) {k : ℕ}
    (hk : (buildRuns C buf old).runStart j + k < (buildRuns C buf old).runStart (j + 1))
    (hn : (buildRuns C buf old).runStart (j + 1) ≤ nActive C) :
    shLocal C (shOrder C buf ((buildRuns C buf old).runStart j + k)) =
      shLocal C (shOrder C buf ((buildRuns C buf old).runStart j)) := by
  induction k with
  | zero => rw [Nat.add_zero]
  | succ k ih =>
    have hnot := not_isStart_between old (t := (buildRuns C buf old).runStart j + (k + 1)) hj
      (by omega) hk
    have hsame := (of_not_isStart (by omega) hnot).1
    exact hsame.symm.trans (ih (by omega))

variable (old) in
theorem runStart_succ_le {j : ℕ} (hj : j < (starts C buf).length) :
    (buildRuns C buf old).runStart (j + 1) ≤ nActive C := by
  rcases Nat.lt_or_eq_of_le (Nat.succ_le_of_lt hj) with h | h
  · exact Nat.le_of_lt (mem_starts.mp (runStart_mem h)).1
  · have hend := runStart_nRuns C buf old
    rw [← h] at hend
    exact Nat.le_of_eq hend

variable (old) in
/-- **A tile's rows**: a run has at most eight slots, as eight places in a row hold a
multiple of eight. -/
theorem run_length_le {j : ℕ} (hj : j < (starts C buf).length) :
    (buildRuns C buf old).runStart (j + 1) - (buildRuns C buf old).runStart j ≤ 8 := by
  by_contra hlong
  have hn := runStart_succ_le old hj
  -- within the run the place where its class is full again would start another
  set a := (buildRuns C buf old).runStart j with ha
  set first := firstOf C (shLocal C (shOrder C buf a)) with hfirst
  obtain ⟨k, hk₁, hk₂, hdvd⟩ : ∃ k : ℕ, 1 ≤ k ∧ k ≤ 8 ∧ (8 : ℤ) ∣ ((a + k : ℕ) : ℤ) - first :=
    ⟨(8 - ((a : ℤ) - first) % 8).toNat, by omega, by omega, by omega⟩
  have hexpert := shLocal_run hj (k := k) (by omega) hn
  have hnot := not_isStart_between old (t := a + k) hj (by omega) (by omega)
  have hne := (of_not_isStart (by omega) hnot).2
  rw [hexpert, ← ha] at hne
  exact hne (Int.tmod_eq_zero_of_dvd hdvd)

/-! ### What a block reads -/

/-- The table a block of a call with more than one row reads is one that block `0` of the
rotation kernel built for this call. -/
def TableOk (C : Call V) (T : RunTable) : Prop := 1 < C.rows → ∃ buf old, T = buildRuns C buf old

/-- The slots of run `runIdx`, none where there is no run. -/
def runRows (C : Call V) (T : RunTable) (runIdx : ℕ) : List ℕ := (readRun C T runIdx).getD []

theorem order_eq {i : ℕ} (hi : i < nActive C) :
    (buildRuns C buf old).order i = shOrder C buf i := by
  refine scatterWrite_of_mem ?_ (List.mem_map.mpr ⟨i, List.mem_range.mpr hi, rfl⟩)
  rw [List.map_map]
  exact (List.map_id' (List.range (nActive C))).symm ▸ List.nodup_range

variable (old) in
/-- A run of the table, slot by slot. -/
theorem runRows_table (h : 1 < C.rows) {j : ℕ} (hj : j < (starts C buf).length) :
    runRows C (buildRuns C buf old) j =
      ((List.range ((buildRuns C buf old).runStart (j + 1) - (buildRuns C buf old).runStart j)).map
        ((buildRuns C buf old).runStart j + ·)).map (shOrder C buf) := by
  have hn := runStart_succ_le old hj
  rw [runRows, readRun, if_neg (Nat.not_le_of_lt h), nRuns_eq, if_neg (Nat.not_le_of_lt hj),
    List.map_map]
  refine List.map_congr_left fun k hk => ?_
  have hk := List.mem_range.mp hk
  exact order_eq (by omega)

theorem runRows_past (h : 1 < C.rows) {j : ℕ} (hj : (starts C buf).length ≤ j) :
    runRows C (buildRuns C buf old) j = [] := by
  rw [runRows, readRun, if_neg (Nat.not_le_of_lt h), nRuns_eq, if_pos hj]
  rfl

/-- The runs of several rows are consecutive pieces of the sorted slots. -/
theorem runRows_perm_table (h : 1 < C.rows) (buf old) :
    ((List.range C.slots).flatMap (runRows C (buildRuns C buf old))).Perm C.activeSlots := by
  have hle : (starts C buf).length ≤ C.slots :=
    Nat.le_trans (length_starts_le C buf) (nActive_le C)
  obtain ⟨m, hm⟩ := Nat.exists_eq_add_of_le hle
  -- the blocks past the last run do nothing
  have hpast : ((List.range m).map ((starts C buf).length + ·)).flatMap
      (runRows C (buildRuns C buf old)) = [] := by
    refine List.flatMap_eq_nil_iff.mpr fun j hj => ?_
    obtain ⟨i, -, rfl⟩ := List.mem_map.mp hj
    exact runRows_past h (Nat.le_add_right _ i)
  -- the runs of the table cut the order into pieces
  have hruns : (List.range (starts C buf).length).flatMap (runRows C (buildRuns C buf old)) =
      (List.range (nActive C)).map (shOrder C buf) := by
    rw [List.flatMap_congr fun j hj => runRows_table old h (List.mem_range.mp hj),
      ← List.map_flatMap,
      flatMap_pieces (runStart_zero C buf old) fun j hj =>
        Nat.le_of_lt (runStart_lt_runStart old (Nat.lt_succ_self j) (Nat.succ_le_of_lt hj)),
      runStart_nRuns]
  rw [hm, List.range_add, List.flatMap_append, hpast, List.append_nil, hruns]
  exact map_shOrder_perm C buf

/-- With one row there is no table: a block's run is its own slot. -/
theorem runRows_single (h : C.rows ≤ 1) (T : RunTable) (i : ℕ) :
    runRows C T i = if i < C.slots ∧ C.isActive i = true then [i] else [] := by
  rw [runRows, readRun, if_pos h]
  by_cases hi : C.slots ≤ i
  · rw [if_pos hi, if_neg fun hlt => absurd hlt.1 (Nat.not_lt_of_ge hi)]
    rfl
  · rw [if_neg hi]
    by_cases ha : C.isActive i = true
    · rw [if_pos ha, if_pos ⟨Nat.lt_of_not_ge hi, ha⟩]
      rfl
    · rw [if_neg ha, if_neg fun hlt => ha hlt.2]
      rfl

theorem flatMap_runRows_single (h : C.rows ≤ 1) (T : RunTable) {l : List ℕ}
    (hl : ∀ i ∈ l, i < C.slots) : l.flatMap (runRows C T) = l.filter C.isActive := by
  induction l with
  | nil => rfl
  | cons i l ih =>
    have hi := hl i List.mem_cons_self
    rw [List.flatMap_cons, List.filter_cons, ih fun j hj => hl j (List.mem_cons_of_mem _ hj),
      runRows_single h]
    -- a slot is its own run, if it is active
    by_cases ha : C.isActive i = true
    · rw [if_pos ⟨hi, ha⟩, if_pos ha]
      rfl
    · rw [if_neg fun hlt => ha hlt.2, if_neg ha]
      rfl

/-- **Every active slot is in one run**, once. -/
theorem runRows_perm {T : RunTable} (hT : TableOk C T) :
    ((List.range C.slots).flatMap (runRows C T)).Perm C.activeSlots := by
  rcases Nat.lt_or_ge 1 C.rows with h | h
  · obtain ⟨buf, old, rfl⟩ := hT h
    exact runRows_perm_table h buf old
  · rw [flatMap_runRows_single h T fun i hi => List.mem_range.mp hi]
    exact List.Perm.refl _

/-- A slot of a run is an active one. -/
theorem mem_runRows {T : RunTable} (hT : TableOk C T) {i s : ℕ} (hi : i < C.slots)
    (hs : s ∈ runRows C T i) : s ∈ C.activeSlots :=
  (runRows_perm hT).mem_iff.mp (List.mem_flatMap.mpr ⟨i, List.mem_range.mpr hi, hs⟩)

/-- An active slot is in a run. -/
theorem exists_run {T : RunTable} (hT : TableOk C T) {s : ℕ} (hs : s ∈ C.activeSlots) :
    ∃ i < C.slots, s ∈ runRows C T i := by
  obtain ⟨i, hi, hmem⟩ := List.mem_flatMap.mp ((runRows_perm hT).mem_iff.mpr hs)
  exact ⟨i, List.mem_range.mp hi, hmem⟩

/-- A run of the table. -/
theorem readRun_table_sound (hrows : 1 < C.rows) (buf old) {i : ℕ} {l : List ℕ}
    (h : readRun C (buildRuns C buf old) i = some l) :
    l ≠ [] ∧ l.length ≤ 8 ∧ ∀ s ∈ l, (slotInfo C s).localId = (slotInfo C (l.headD 0)).localId := by
  -- the block reads a run of the table
  have hj : i < (starts C buf).length := by
    by_contra hge
    rw [readRun, if_neg (Nat.not_le_of_lt hrows), nRuns_eq, if_pos (Nat.le_of_not_lt hge)] at h
    cases h
  have hrun := runRows_table old hrows hj
  rw [runRows, h, Option.getD_some, List.map_map] at hrun
  have hlt := runStart_lt_runStart old (Nat.lt_succ_self i) (Nat.succ_le_of_lt hj)
  have hn := runStart_succ_le old hj
  obtain ⟨m, hm⟩ : ∃ m, (buildRuns C buf old).runStart (i + 1) -
      (buildRuns C buf old).runStart i = m + 1 :=
    ⟨_, (Nat.sub_add_cancel (Nat.sub_pos_of_lt hlt)).symm⟩
  have hhead : l.headD 0 = shOrder C buf ((buildRuns C buf old).runStart i) := by
    rw [hrun, hm, List.range_succ_eq_map]
    rfl
  -- at least one slot, at most eight, and one expert
  refine ⟨?_, ?_, fun s hs => ?_⟩
  · rintro rfl
    rw [hm] at hrun
    exact absurd hrun (by simp)
  · have hle := run_length_le old hj
    rw [hrun, List.length_map, List.length_range]
    exact hle
  · rw [hrun] at hs
    obtain ⟨k, hk, rfl⟩ := List.mem_map.mp hs
    have hk := List.mem_range.mp hk
    -- no run starts between the first slot and this one, so their experts agree
    have hsame := shLocal_run (k := k) hj (by omega) hn
    rw [shLocal_of_active (mem_activeSlots.mp (shOrder_mem (by omega))).2,
      shLocal_of_active (mem_activeSlots.mp (shOrder_mem (by omega))).2] at hsame
    rw [hhead]
    exact Int.ofNat_inj.mp hsame

/-- **A run is a tile of one expert.** -/
theorem readRun_sound {T : RunTable} (hT : TableOk C T) {i : ℕ} {l : List ℕ}
    (h : readRun C T i = some l) :
    l ≠ [] ∧ l.length ≤ 8 ∧ ∀ s ∈ l, (slotInfo C s).localId = (slotInfo C (l.headD 0)).localId := by
  -- several rows read the table, one row reads a slot of its own
  rcases Nat.lt_or_ge 1 C.rows with hrows | hrows
  · obtain ⟨buf, old, rfl⟩ := hT hrows
    exact readRun_table_sound hrows buf old h
  · rw [readRun, if_pos hrows] at h
    by_cases hi : C.slots ≤ i
    · rw [if_pos hi] at h
      cases h
    · rw [if_neg hi] at h
      by_cases ha : C.isActive i = true
      · rw [if_pos ha] at h
        cases h
        refine ⟨List.cons_ne_nil _ _, Nat.le_add_left 1 7, fun s hs => ?_⟩
        rw [List.mem_singleton.mp hs]
        rfl
      · rw [if_neg ha] at h
        cases h

end Dsv41Overlay.Cooperative
