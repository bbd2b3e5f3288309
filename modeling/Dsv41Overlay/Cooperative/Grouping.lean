import Dsv41Overlay.Cooperative.RunThreads
import Dsv41Overlay.Cooperative.Runs
import Dsv41Overlay.Lib.Cuts

/-!
# The run table of the block

Whatever the order in which the threads of the block run, the table that they leave is the one
of `Routing.classRuns`: it lists the active slots by expert and slot, and cuts them into runs
of up to eight slots of one expert (`Groups`). The blocks of the GEMV kernels read it through
`read_run`; a grid of one block for each slot, group of columns and projection then has one for
each run.
-/

namespace Dsv41Overlay.Cooperative

open Cta Cta.Plan

/-- `p.runs` holds the table. -/
structure MoeCoopParams.Stores (p : MoeCoopParams) (runs : ℕ → ℤ) (T : RunTable) : Prop where
  nRuns : runs 0 = T.nRuns
  runStart : ∀ j ≤ T.nRuns, runs (2 + j) = T.runStart j
  order : ∀ i < T.runStart T.nRuns, runs (2 + p.slotsMax + 1 + i) = T.order i

namespace Routing

variable {p : Routing} {mem : RunAddr → ℤ}

/-- The slots are grouped: `T.order` lists the active ones by expert and slot, and the runs are
pieces of it, of up to eight slots of one expert. -/
structure Groups (p : Routing) (T : RunTable) : Prop where
  perm : ((List.range p.activeSlots.length).map T.order).Perm p.activeSlots
  sorted : ∀ i j, i < j → j < p.activeSlots.length →
    p.expert (T.order i) < p.expert (T.order j) ∨
      (p.expert (T.order i) = p.expert (T.order j) ∧ T.order i < T.order j)
  start_zero : T.runStart 0 = 0
  start_lt : ∀ j < T.nRuns, T.runStart j < T.runStart (j + 1)
  start_last : T.runStart T.nRuns = p.activeSlots.length
  length_le : ∀ j < T.nRuns, T.runStart (j + 1) - T.runStart j ≤ 8
  one_expert : ∀ j < T.nRuns, ∀ i, T.runStart j ≤ i → i < T.runStart (j + 1) →
    p.expert (T.order i) = p.expert (T.order (T.runStart j))
  full : ∀ j, j + 1 < T.nRuns →
    p.expert (T.order (T.runStart j)) = p.expert (T.order (T.runStart (j + 1))) →
    T.runStart (j + 1) - T.runStart j = 8
  nRuns_le : T.nRuns ≤ p.activeSlots.length

/-! ### The block -/

theorem verifies (p : Routing) (mem : RunAddr → ℤ) : (p.plan mem).Verifies p.buildRuns :=
  verifies_of_ok (buildRuns_ok p mem)

theorem val_zero (p : Routing) (mem : RunAddr → ℤ) : (p.plan mem).val 0 = mem := by
  funext a
  cases a <;> simp [plan, val]

/-- The runs of the block are those of its plan. -/
theorem reachable_plan {s : State Tid RunAddr ℤ Empty} (hs : (p.block mem).Reachable s) :
    (runs (p.plan mem).warp ((p.plan mem).val 0) p.buildRuns).Reachable s := by
  rw [val_zero]
  exact hs

variable (p) in
/-- The sorted slots, cut into runs. -/
def runTable : RunTable := ⟨p.classRuns.total, p.classRuns.cut, p.sorted⟩

theorem runStart_last : p.runTable.runStart p.runTable.nRuns = p.count := ClassRuns.cut_total

/-- **The table of a finished block**, in any order of its threads. -/
theorem stores_of_finished {s : State Tid RunAddr ℤ Empty} (hs : (p.block mem).Reachable s)
    (hfinished : s.Finished) : p.Stores (fun j => s.mem (.runs j)) p.runTable := by
  -- at the end memory holds what the plan wrote
  have hmem := fun a => (verifies p mem).mem_of_finished (reachable_plan hs) hfinished a
  have htotal := total_le (p := p)
  -- the number of runs, their starts and the order, in this layout
  refine ⟨?_, fun j (hj : j ≤ p.classRuns.total) => ?_, fun i hi => ?_⟩
  · rw [hmem]
    simp [plan, val, runTable]
  · rw [hmem]
    simp only [plan, val, runTable]
    rw [if_neg (by omega), if_neg (by omega), if_pos (by omega), Nat.add_sub_cancel_left]
  · rw [runStart_last] at hi
    have hsub : 2 + p.slotsMax + 1 + i - (3 + p.slotsMax) = i := by omega
    rw [hmem]
    simp only [plan, val, runTable]
    rw [if_pos (by omega), hsub]

/-! ### Grouping -/

theorem expert_sorted {i : ℕ} (hi : i < p.count) : p.expert (p.sorted i) = p.classRuns.cls i := by
  obtain ⟨hs, ha⟩ := mem_activeSlots.mp (sorted_mem hi)
  have := (p.expert_lt _ hs ha).1
  exact (Int.toNat_of_nonneg this).symm

variable (p) in
/-- **The sorted slots, cut at their runs, are grouped.** -/
theorem groups_runTable : Groups p p.runTable := by
  have hcut : ∀ j < p.classRuns.total, p.classRuns.cut j < p.count :=
    fun j hj => ClassRuns.cut_lt hj
  constructor
  case perm => exact map_sorted_perm
  -- by expert first, and within an expert by slot
  case sorted =>
    intro i j hij hj
    have hi : i < p.count := Nat.lt_trans hij hj
    simp only [runTable]
    rw [expert_sorted hi, expert_sorted hj]
    have hkey := key_sorted_lt hij hj
    have hcls := cls_sorted_mono (Nat.le_of_lt hij) hj
    simp only [key] at hkey
    simp only [classRuns]
    omega
  case start_zero => exact ClassRuns.cut_zero
  case start_lt => exact fun j hj => ClassRuns.cut_lt_cut (Nat.lt_succ_self j) hj
  case start_last => exact ClassRuns.cut_total
  case length_le => exact fun j hj => ClassRuns.length_le hj
  -- the slots of a run have the class of its first
  case one_expert =>
    intro j hj i hlo hhi
    simp only [runTable] at hj hlo hhi ⊢
    have hi : i < p.count := Nat.lt_of_lt_of_le hhi (ClassRuns.cut_le _ _)
    obtain ⟨k, rfl⟩ := Nat.exists_eq_add_of_le hlo
    rw [expert_sorted hi, expert_sorted (hcut j hj), ClassRuns.cls_run hj hhi]
  -- a run that is not full ends with its class
  case full =>
    intro j hj hsame
    simp only [runTable] at hj hsame ⊢
    rw [expert_sorted (hcut j (Nat.lt_of_succ_lt hj)), expert_sorted (hcut (j + 1) hj)] at hsame
    exact ClassRuns.length_of_same hj (Int.ofNat_inj.mp hsame)
  case nRuns_le => exact ClassRuns.total_le

/-! ### What the GEMV blocks read -/

/-- The runs, through `read_run`. -/
theorem readRun_eq {runs : ℕ → ℤ} (h : p.Stores runs p.runTable) (hglobal : p.aGlobal = true)
    (j : ℕ) :
    p.readRun runs j =
      if j < p.classRuns.total then
        some ((List.range (p.classRuns.cut (j + 1) - p.classRuns.cut j)).map fun k =>
          p.sorted (p.classRuns.cut j + k))
      else none := by
  -- what the table stores, as the reader sees it
  have hnRuns : runs 0 = p.classRuns.total := h.nRuns
  have hstart : ∀ j ≤ p.classRuns.total, runs (2 + j) = p.classRuns.cut j := h.runStart
  have horder : ∀ i < p.count, runs (2 + p.slotsMax + 1 + i) = p.sorted i :=
    fun i hi => h.order i (runStart_last.symm ▸ hi)
  rw [MoeCoopParams.readRun, hglobal, if_neg (by decide), hnRuns]
  -- a run of the table: its slots are between two starts
  by_cases hj : j < p.classRuns.total
  · rw [if_neg (by omega), if_pos hj]
    have hcut : runs (2 + j + 1) = p.classRuns.cut (j + 1) := by
      rw [Nat.add_assoc]
      exact hstart (j + 1) hj
    have hle := ClassRuns.cut_lt_cut (Nat.lt_succ_self j) hj
    have hlen : ((p.classRuns.cut (j + 1) : ℤ) - p.classRuns.cut j).toNat =
        p.classRuns.cut (j + 1) - p.classRuns.cut j := by omega
    dsimp only
    rw [hstart j (Nat.le_of_lt hj), hcut, Int.toNat_natCast, hlen]
    refine congrArg some (List.map_congr_left fun k hk => ?_)
    have hk := List.mem_range.mp hk
    have hn := ClassRuns.cut_le p.classRuns (j + 1)
    have hlast : p.classRuns.n = p.count := rfl
    rw [Nat.add_assoc, horder _ (by omega), Int.toNat_natCast]
  -- behind the last run there is none
  · rw [if_pos (by omega), if_neg hj]

/-- The slots of a run, none where there is no run. -/
def handled (p : Routing) (runs : ℕ → ℤ) (j : ℕ) : List ℕ := (p.readRun runs j).getD []

theorem sorted_inj {i j : ℕ} (hi : i < p.count) (hj : j < p.count)
    (h : p.sorted i = p.sorted j) : i = j := by
  rcases Nat.lt_trichotomy i j with hij | hij | hij
  · have := key_sorted_lt hij hj
    rw [h] at this
    omega
  · exact hij
  · have := key_sorted_lt hij hi
    rw [h] at this
    omega

/-- The slots of a run that the table holds. -/
theorem mem_handled_iff {runs : ℕ → ℤ} (h : p.Stores runs p.runTable) (hglobal : p.aGlobal = true)
    {i j : ℕ} (hi : i < p.count) :
    p.sorted i ∈ handled p runs j ↔
      j < p.classRuns.total ∧ p.classRuns.cut j ≤ i ∧ i < p.classRuns.cut (j + 1) := by
  rw [handled, readRun_eq h hglobal]
  -- the slots of a run are at the places between its cuts
  by_cases hj : j < p.classRuns.total
  · have hn := ClassRuns.cut_le p.classRuns (j + 1)
    have hlast : p.classRuns.n = p.count := rfl
    rw [if_pos hj, Option.getD_some, List.mem_map]
    constructor
    · rintro ⟨k, hk, heq⟩
      have hk := List.mem_range.mp hk
      have := sorted_inj (by omega) hi heq
      exact ⟨hj, by omega, by omega⟩
    · rintro ⟨-, hlo, hhi⟩
      refine ⟨i - p.classRuns.cut j, List.mem_range.mpr (by omega), ?_⟩
      rw [Nat.add_sub_cancel' hlo]
  · rw [if_neg hj]
    simp [hj]

/-- **Every active slot is handled by exactly one run.** -/
theorem existsUnique_handled {runs : ℕ → ℤ} (h : p.Stores runs p.runTable) {s : ℕ}
    (hs : s ∈ p.activeSlots) :
    ∃! j, s ∈ handled p runs j := by
  -- without the table every slot is a run, with it the runs cut the order into blocks
  cases hglobal : p.aGlobal with
  | false =>
    -- a run is a slot
    have hiff : ∀ j, s ∈ handled p runs j ↔ j = s := by
      intro j
      obtain ⟨hslot, hactive⟩ := mem_activeSlots.mp hs
      rw [handled, MoeCoopParams.readRun, if_pos hglobal]
      split
      · simp only [Option.getD_none, List.not_mem_nil, false_iff]
        omega
      split
      · simp only [Option.getD_some, List.mem_singleton]
        exact eq_comm
      · rename_i hinactive
        simp only [Option.getD_none, List.not_mem_nil, false_iff]
        rintro rfl
        exact hinactive hactive
    exact ⟨s, (hiff s).mpr rfl, fun j hj => (hiff j).mp hj⟩
  -- the rank of the slot lies in exactly one block
  | true =>
    have hrank : rank p.key p.activeSlots s < p.count := rank_lt_length hs
    obtain ⟨j, ⟨hj, hlo, hhi⟩, huniq⟩ := existsUnique_block (b := p.classRuns.cut)
      (n := p.classRuns.total) (fun k hk => ClassRuns.cut_lt_cut (Nat.lt_succ_self k) hk)
      (x := rank p.key p.activeSlots s) (by rw [ClassRuns.cut_zero]; exact Nat.zero_le _)
      (by rw [ClassRuns.cut_total]; exact hrank)
    have hmem := fun j => mem_handled_iff h hglobal (j := j) hrank
    simp only [sorted_rank hs] at hmem
    exact ⟨j, (hmem j).mpr ⟨hj, hlo, hhi⟩, fun k hk => huniq k ((hmem k).mp hk)⟩

/-- A run has active slots only, each once, and a block for each slot is enough for all runs. -/
theorem handled_sound {runs : ℕ → ℤ} (h : p.Stores runs p.runTable) {j : ℕ} {l : List ℕ}
    (hl : p.readRun runs j = some l) :
    l ≠ [] ∧ l.length ≤ 8 ∧ l.Nodup ∧ l ⊆ p.activeSlots ∧ j < p.slots := by
  -- a run of one slot
  cases hglobal : p.aGlobal with
  | false =>
    rw [MoeCoopParams.readRun, if_pos hglobal] at hl
    split at hl
    · exact nomatch hl
    rename_i hslot
    split at hl
    · rename_i hactive
      obtain rfl := Option.some.inj hl
      refine ⟨List.cons_ne_nil _ _, by simp, List.nodup_singleton j, ?_, by omega⟩
      rintro s hs
      obtain rfl := List.mem_singleton.mp hs
      exact mem_activeSlots.mpr ⟨by omega, hactive⟩
    · exact nomatch hl
  -- a run of the table
  | true =>
    rw [readRun_eq h hglobal] at hl
    split at hl
    swap
    · exact nomatch hl
    rename_i hj
    obtain rfl := Option.some.inj hl
    have hn := ClassRuns.cut_le p.classRuns (j + 1)
    have hlast : p.classRuns.n = p.count := rfl
    have hlt : p.classRuns.cut j < p.classRuns.cut (j + 1) :=
      ClassRuns.cut_lt_cut (Nat.lt_succ_self j) hj
    have hlen := ClassRuns.length_le hj
    have hwidth : p.classRuns.width = 8 := rfl
    -- not empty, at most eight slots, all different and active, and a run below the number of slots
    refine ⟨?_, ?_, ?_, ?_, ?_⟩
    · intro hnil
      have := congrArg List.length hnil
      simp only [List.length_map, List.length_range, List.length_nil] at this
      omega
    · rw [List.length_map, List.length_range]
      omega
    · refine (List.nodup_map_iff_inj_on List.nodup_range).mpr fun k hk k' hk' heq => ?_
      have hk := List.mem_range.mp hk
      have hk' := List.mem_range.mp hk'
      have := sorted_inj (by omega) (by omega) heq
      omega
    · intro s hs
      obtain ⟨k, hk, rfl⟩ := List.mem_map.mp hs
      have hk := List.mem_range.mp hk
      exact sorted_mem (by omega)
    · exact Nat.lt_of_lt_of_le hj
        (Nat.le_trans ClassRuns.total_le (Nat.le_trans (Nat.le_of_eq hlast) count_le))

end Routing

/-! ### The grids -/

theorem itemB_iff {groups r g b : ℕ} (hg : g < groups) :
    itemB groups b = (r, g) ↔ b = r * groups + g := by
  rw [itemB, Prod.mk.injEq]
  constructor
  · rintro ⟨rfl, rfl⟩
    exact (Nat.div_add_mod' b groups).symm
  · rintro rfl
    constructor
    · rw [Nat.mul_comm, Nat.mul_add_div (by omega), Nat.div_eq_of_lt hg, Nat.add_zero]
    · rw [Nat.mul_comm, Nat.mul_add_mod, Nat.mod_eq_of_lt hg]

theorem itemA_iff {groups r g q b : ℕ} (hg : g < groups) (hq : q < 2) :
    itemA groups b = (r, g, q) ↔ b = (r * groups + g) * 2 + q := by
  have hB := itemB_iff (r := r) (b := b / 2) hg
  rw [itemB, Prod.mk.injEq] at hB
  rw [itemA, Prod.mk.injEq, Prod.mk.injEq, ← and_assoc, hB]
  omega

/-- **Kernel B has one block for each run and group.** -/
theorem existsUnique_itemB {slots groups r g : ℕ} (hr : r < slots) (hg : g < groups) :
    ∃! b, b < slots * groups ∧ itemB groups b = (r, g) := by
  have hlt : r * groups + g < slots * groups :=
    calc r * groups + g < r * groups + groups := Nat.add_lt_add_left hg _
      _ = (r + 1) * groups := (Nat.succ_mul r groups).symm
      _ ≤ slots * groups := Nat.mul_le_mul_right groups hr
  exact ⟨_, ⟨hlt, (itemB_iff hg).mpr rfl⟩, fun b hb => (itemB_iff hg).mp hb.2⟩

/-- **Kernel A has one block for each run, group and projection.** -/
theorem existsUnique_itemA {slots groups r g q : ℕ} (hr : r < slots) (hg : g < groups)
    (hq : q < 2) : ∃! b, b < slots * 2 * groups ∧ itemA groups b = (r, g, q) := by
  obtain ⟨b, ⟨hlt, hb⟩, -⟩ := existsUnique_itemB hr hg
  have hb := (itemB_iff hg).mp hb
  refine ⟨_, ⟨?_, (itemA_iff hg hq).mpr rfl⟩, fun b hb => (itemA_iff hg hq).mp hb.2⟩
  rw [Nat.mul_right_comm]
  omega

namespace Routing

/-- **The run table groups the slots**, in every order in which the threads of the block run:
every run comes to an end, without a race, and leaves a table of runs through which the blocks
of kernels A and B handle each active slot once. -/
theorem build_runs_groups (p : Routing) (mem : RunAddr → ℤ) {s : State Tid RunAddr ℤ Empty}
    (hs : (p.block mem).Reachable s) :
    Acc (fun s₂ s₁ => Step Tid.warp s₁ s₂) s ∧ (s.Finished ∨ ∃ s', Step Tid.warp s s') ∧
      ¬ s.Race ∧
      (s.Finished → ∃ T, p.Stores (fun j => s.mem (.runs j)) T ∧ Groups p T ∧
        (∀ slot ∈ p.activeSlots, ∃! j, slot ∈ handled p (fun j => s.mem (.runs j)) j) ∧
        ∀ j l, p.readRun (fun j => s.mem (.runs j)) j = some l →
          l ≠ [] ∧ l.length ≤ 8 ∧ l.Nodup ∧ l ⊆ p.activeSlots ∧
          ∀ groups g, g < groups →
            (∀ q < 2, ∃! b, b < p.slots * 2 * groups ∧ itemA groups b = (j, g, q)) ∧
            ∃! b, b < p.slots * groups ∧ itemB groups b = (j, g)) := by
  -- every reachable state follows the plan
  have hplan := reachable_plan hs
  refine ⟨(verifies p mem).accessible hplan, ?_, (verifies p mem).not_race hplan,
    fun hfinished => ?_⟩
  -- a state that is not finished has a step
  · by_cases hfinished : s.Finished
    · exact .inl hfinished
    · exact .inr ((verifies p mem).exists_step hplan fun hnot => hfinished hnot.1)
  -- a finished one holds the table
  have hstores := stores_of_finished hs hfinished
  refine ⟨p.runTable, hstores, groups_runTable p, fun slot hslot =>
    existsUnique_handled hstores hslot, fun j l hl => ?_⟩
  obtain ⟨hne, hlen, hnd, hsub, hj⟩ := handled_sound hstores hl
  exact ⟨hne, hlen, hnd, hsub, fun groups g hg =>
    ⟨fun q hq => existsUnique_itemA hj hg hq, existsUnique_itemB hj hg⟩⟩

/-- Two rows whose slots alternate between two experts. -/
def alternating : Routing where
  bsz := 2
  topk := 6
  slotsMax := 48
  minExpert := 0
  maxExpert := 2
  aGlobal := true
  sel s := (s % 2 : ℕ)
  rw _ := 0x3c00#16
  slots_le := by decide
  slotsMax_le := by decide
  expert_lt := by decide

/-- The runs of the block that groups them. -/
theorem build_runs_groups_alternating :
    ∃ s, (alternating.block fun _ => 7).Reachable s ∧ s.Finished ∧ ¬ s.Race ∧
      ∃ T, alternating.Stores (fun j => s.mem (.runs j)) T ∧ Groups alternating T := by
  obtain ⟨s, hs, hfinished⟩ := (verifies alternating fun _ => 7).exists_finished
  rw [val_zero] at hs
  obtain ⟨-, -, hrace, htable⟩ := build_runs_groups alternating (fun _ => 7) hs
  obtain ⟨T, hstores, hgroups, -⟩ := htable hfinished
  exact ⟨s, hs, hfinished, hrace, T, hstores, hgroups⟩

end Routing

/-! ### Calls of the library -/

variable {V : Type*}

/-- `goal50_fixed_params` of a call. -/
def Call.params (C : Call V) : MoeCoopParams where
  bsz := C.rows
  topk := 6
  slotsMax := 48
  minExpert := 0
  maxExpert := C.experts
  aGlobal := decide (1 < C.rows)
  sel := C.ids
  rw := C.weights

theorem params_active (C : Call V) (s : ℕ) : C.params.active s = C.isActive s := by
  simp only [MoeCoopParams.active, MoeCoopParams.slotInfo, Call.params, Int.le_refl, if_true]
  rfl

theorem params_expert {C : Call V} {s : ℕ} (h : C.isActive s = true) :
    C.params.expert s = (slotInfo C s).localId := by
  have hle := C.experts_le
  simp only [Call.isActive, slotInfo, Bool.and_eq_true, decide_eq_true_eq] at h
  obtain ⟨hw, he, hlt⟩ := h
  simp only [MoeCoopParams.expert, MoeCoopParams.slotInfo, Call.params, slotInfo, hw, he, hlt,
    decide_true, Bool.and_true, if_true, Int.le_refl, Int.sub_zero, Int.toNat_of_nonneg he]
  exact Int.bmod_eq_of_le (by omega) (by omega)

/-- A call has few enough slots and experts for the table. -/
def Call.routing (C : Call V) : Routing where
  toMoeCoopParams := C.params
  slots_le := slots_le C
  slotsMax_le := show 48 ≤ maxSlots by decide
  expert_lt s _ hs := by
    have hactive : C.isActive s = true := params_active C s ▸ hs
    have hlt := localId_lt hactive
    have hle := C.experts_le
    rw [params_expert hactive]
    omega

section

variable (C : Call V) (buf : ℕ → ℕ) (old : RunTable)

theorem routing_activeSlots : C.routing.activeSlots = C.activeSlots :=
  List.filter_congr fun s _ => params_active C s

/-- The slots of both tables have the same keys. -/
theorem routing_key {s : ℕ} (hs : s ∈ C.activeSlots) : C.routing.key s = slotKey C s := by
  obtain ⟨hslot, hactive⟩ := mem_activeSlots.mp hs
  have hexpert : C.routing.expert s = (slotInfo C s).localId := params_expert hactive
  rw [slotKey_eq hslot, shLocal_of_active hactive, Routing.key, Routing.cls, hexpert]

theorem routing_count : C.routing.count = nActive C := by
  rw [Routing.count, routing_activeSlots, nActive_eq]

theorem routing_sorted {i : ℕ} (hi : i < nActive C) : C.routing.sorted i = shOrder C buf i := by
  obtain ⟨s, hs, hrank, hsorted⟩ := Routing.exists_sorted (p := C.routing)
    (show i < C.routing.count from routing_count C ▸ hi)
  rw [routing_activeSlots] at hs hrank
  have hsame : rank (slotKey C) C.activeSlots s = i := by
    rw [← hrank, rank, rank]
    exact List.countP_congr fun u hu => by rw [routing_key C hu, routing_key C hs]
  rw [hsorted, shOrder_eq, ← hsame]
  exact (rankTable_rank (slotKey_inj C) (nodup_activeSlots C) hs).symm

/-- Runs start at the same places. -/
theorem routing_isStart (t : ℕ) : C.routing.classRuns.isStart t = isStart C buf t := by
  have hn : C.routing.classRuns.n = nActive C := routing_count C
  -- behind the active slots nothing starts
  by_cases ht : t < nActive C
  swap
  · simp [ClassRuns.isStart, isStart, hn, ht]
  -- the shared order carries the classes
  have hexpert : ∀ i < nActive C, shLocal C (shOrder C buf i) = C.routing.classRuns.cls i := by
    intro i hi
    have hi' : i < C.routing.count := routing_count C ▸ hi
    have hmem : shOrder C buf i ∈ C.activeSlots := shOrder_mem hi
    obtain ⟨-, hactive⟩ := mem_activeSlots.mp hmem
    rw [← Routing.expert_sorted hi', routing_sorted C buf hi, shLocal_of_active hactive]
    exact (params_expert hactive).symm
  -- the first slot of a class
  have hfirst : firstOf C (C.routing.classRuns.cls t) =
      C.routing.classRuns.first (C.routing.classRuns.cls t) := by
    rw [← Routing.firstOf_eq, MoeCoopParams.firstOf, List.countP_map]
    refine List.countP_congr fun u hu => ?_
    have hu := List.mem_range.mp hu
    have hlocal : C.routing.localVal u = shLocal C u := by
      by_cases hactive : C.isActive u = true
      · rw [shLocal_of_active hactive, Routing.localVal,
          show C.routing.active u = true from (params_active C u).trans hactive, if_pos rfl]
        exact params_expert hactive
      · have hinactive : ¬ (slotInfo C u).active = true := hactive
        rw [shLocal, if_neg hinactive, Routing.localVal,
          show C.routing.active u = C.isActive u from params_active C u, if_neg hactive]
    rw [Function.comp_apply, hlocal]
  simp only [ClassRuns.isStart, isStart, hn, ht, decide_true, Bool.true_and]
  -- at `0` a run starts; elsewhere where the class changes or the run is full
  by_cases h0 : t = 0
  · simp [h0]
  rw [hexpert t ht, hexpert (t - 1) (by omega), ← hfirst]
  simp only [h0, decide_false, Bool.false_or, firstOf, bne, beq_eq_decide, Int.ofNat_inj,
    ← decide_not, ne_eq]
  rfl

theorem routing_starts : C.routing.classRuns.starts = starts C buf := by
  rw [Routing.starts_eq_filter, starts, threads_eq]
  exact List.filter_congr fun t _ => routing_isStart C buf t

variable {C} in
/-- **The block builds the table of `buildRuns`**, which the analysis of the three kernels starts
from. -/
theorem stores_buildRuns {mem : RunAddr → ℤ} {s : State Tid RunAddr ℤ Empty}
    (hs : (C.routing.block mem).Reachable s) (hfinished : s.Finished) :
    C.params.Stores (fun j => s.mem (.runs j)) (buildRuns C buf old) := by
  -- what the finished block stores
  obtain ⟨hnRuns, hstart, horder⟩ := Routing.stores_of_finished hs hfinished
  have htotal : C.routing.classRuns.total = (starts C buf).length :=
    congrArg List.length (routing_starts C buf)
  have hlast : C.routing.runTable.runStart C.routing.runTable.nRuns = nActive C :=
    Routing.runStart_last.trans (routing_count C)
  -- the number of runs, each start and each place of the order
  refine ⟨?_, fun j hj => ?_, fun i hi => ?_⟩
  · rw [hnRuns, nRuns_eq, ← htotal]
    rfl
  · rw [nRuns_eq, ← htotal] at hj
    refine (hstart j hj).trans (congrArg _ ?_)
    show C.routing.classRuns.cut j = _
    -- a start before the end, or the end
    rcases Nat.lt_or_eq_of_le hj with hj | rfl
    · rw [runStart_eq (htotal ▸ hj), ClassRuns.cut_of_lt hj, routing_starts C buf]
      obtain ⟨t, ht, rfl, htable⟩ := exists_rank (starts_inj C buf) (nodup_starts C buf)
        old.runStart (htotal ▸ hj)
      rw [htable, rankTable_rank (starts_inj C buf) (nodup_starts C buf) ht]
    · rw [ClassRuns.cut_total, htotal, runStart_nRuns]
      exact routing_count C
  · rw [nRuns_eq, runStart_nRuns] at hi
    rw [order_eq hi, ← routing_sorted C buf hi]
    exact horder i (hlast.symm ▸ hi)

end

end Dsv41Overlay.Cooperative
