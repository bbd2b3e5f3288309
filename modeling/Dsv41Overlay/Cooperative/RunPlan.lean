import Dsv41Overlay.Cooperative.RunBlock
import Dsv41Overlay.Lib.ClassRuns
import Dsv41Overlay.Lib.CtaRules

/-!
# What the block computes

The active slots in the order of their keys are the items of a `ClassRuns`, whose classes are
the experts. The plan of the block (`Routing.plan`) says in which of the four phases between
its barriers each address gets its value: `sh_local` in the first, `sh_order` and the number of
active slots in the second, the order and the warps' totals in the third, the places where runs
start in the last.
-/

namespace Dsv41Overlay.Cooperative

open Cta

namespace Routing

variable (p : Routing)

/-! ### The sorted slots -/

/-- A slot's class is its expert. -/
def cls (s : ℕ) : ℕ := (p.expert s).toNat

/-- The key of an active slot. -/
def key (s : ℕ) : ℕ := p.cls s * 2 ^ 8 + s

/-- The slot at a place of the order. -/
def sorted (i : ℕ) : ℕ := rankTable p.key p.activeSlots (fun _ => 0) i

/-- The number of active slots. -/
def count : ℕ := p.activeSlots.length

variable {p}

theorem slots_le_256 : p.slots ≤ 256 := Nat.le_trans p.slots_le p.slotsMax_le

theorem mem_activeSlots {s : ℕ} : s ∈ p.activeSlots ↔ s < p.slots ∧ p.active s = true := by
  rw [MoeCoopParams.activeSlots, List.mem_filter, List.mem_range]

theorem nodup_activeSlots : p.activeSlots.Nodup := List.nodup_range.filter _

theorem count_le : p.count ≤ p.slots := by
  have hle := List.length_filter_le p.active (List.range p.slots)
  rwa [List.length_range] at hle

theorem key_inj : ∀ s ∈ p.activeSlots, ∀ t ∈ p.activeSlots, p.key s = p.key t → s = t := by
  intro s hs t ht h
  have hs := (mem_activeSlots.mp hs).1
  have ht := (mem_activeSlots.mp ht).1
  have := slots_le_256 (p := p)
  simp only [key] at h
  omega

/-- The rank of an active slot is its place. -/
theorem sorted_rank {s : ℕ} (hs : s ∈ p.activeSlots) :
    p.sorted (rank p.key p.activeSlots s) = s := rankTable_rank key_inj nodup_activeSlots hs

theorem exists_sorted {i : ℕ} (hi : i < p.count) :
    ∃ s ∈ p.activeSlots, rank p.key p.activeSlots s = i ∧ p.sorted i = s :=
  exists_rank key_inj nodup_activeSlots _ hi

theorem sorted_mem {i : ℕ} (hi : i < p.count) : p.sorted i ∈ p.activeSlots :=
  rankTable_mem key_inj nodup_activeSlots hi

theorem sorted_lt {i : ℕ} (hi : i < p.count) : p.sorted i < 256 :=
  Nat.lt_of_lt_of_le (mem_activeSlots.mp (sorted_mem hi)).1 slots_le_256

theorem key_sorted_lt {i j : ℕ} (hij : i < j) (hj : j < p.count) :
    p.key (p.sorted i) < p.key (p.sorted j) :=
  key_rankTable_lt key_inj nodup_activeSlots _ hij hj

/-- The order by key is the order by expert, then by slot. -/
theorem cls_sorted_mono {i j : ℕ} (hij : i ≤ j) (hj : j < p.count) :
    p.cls (p.sorted i) ≤ p.cls (p.sorted j) := by
  rcases Nat.lt_or_eq_of_le hij with h | rfl
  · have hlt := key_sorted_lt h hj
    have := sorted_lt (Nat.lt_trans h hj)
    have := sorted_lt hj
    simp only [key] at hlt
    omega
  · exact Nat.le_refl _

theorem map_sorted_perm : ((List.range p.count).map p.sorted).Perm p.activeSlots :=
  map_rankTable_perm key_inj nodup_activeSlots

variable (p) in
/-- The places of the order, with the experts as classes. -/
def classRuns : ClassRuns where
  n := p.count
  width := 8
  cls i := p.cls (p.sorted i)
  first c := p.activeSlots.countP fun s => p.cls s < c
  width_pos := by decide
  first_iff c i hi := by
    have hcount := (map_sorted_perm (p := p)).countP_eq fun s => decide (p.cls s < c)
    rw [List.countP_map] at hcount
    rw [← hcount]
    exact lt_countP_iff (f := fun i => p.cls (p.sorted i))
      (fun _ _ hij hj => cls_sorted_mono hij hj) c hi

/-! ### The scan -/

variable (p) in
/-- Whether a run starts at a place, as a number. -/
def flag (i : ℕ) : ℕ := (p.classRuns.isStart i).toNat

variable (p) in
/-- What the lanes of a warp have after `i` rounds of the scan. -/
def scanned (i warp : ℕ) : ℕ → ℕ :=
  ((List.range i).map (2 ^ ·)).foldl scanStep fun lane => p.flag (warp * 32 + lane)

theorem scanned_succ (i warp : ℕ) :
    p.scanned (i + 1) warp = scanStep (p.scanned i warp) (2 ^ i) := by
  rw [scanned, List.range_succ, List.map_append, List.foldl_append]
  rfl

/-- After five rounds a lane has the sum over the lanes up to its own. -/
theorem scanned_eq {warp lane : ℕ} (h : lane < 32) :
    p.scanned 5 warp lane = prefixSum (fun l => p.flag (warp * 32 + l)) (lane + 1) := by
  rw [scanned, foldl_scanStep]
  exact windowSum_of_lt _ h

/-- The warps' totals add up to the runs that start before a warp. -/
theorem prefixSum_scanned (n : ℕ) :
    prefixSum (fun w => p.scanned 5 w 31) n = prefixSum p.flag (n * 32) := by
  rw [← prefixSum_blocks]
  exact prefixSum_congr fun w _ => scanned_eq (by decide)

/-- No run starts past the last thread. -/
theorem starts_eq_filter : p.classRuns.starts = (List.range 512).filter p.classRuns.isStart := by
  have hle : p.classRuns.n ≤ 512 := Nat.le_trans count_le (Nat.le_trans slots_le_256 (by decide))
  obtain ⟨m, hm⟩ := Nat.exists_eq_add_of_le hle
  have hnil : ((List.range m).map (p.classRuns.n + ·)).filter p.classRuns.isStart = [] := by
    refine List.filter_eq_nil_iff.mpr fun i hi hstart => ?_
    obtain ⟨k, -, rfl⟩ := List.mem_map.mp hi
    have := ClassRuns.lt_of_isStart hstart
    omega
  rw [ClassRuns.starts, hm, List.range_add, List.filter_append, hnil, List.append_nil]

theorem prefixSum_flag {t : ℕ} (ht : t ≤ 512) :
    prefixSum p.flag t = rank id p.classRuns.starts t := by
  rw [starts_eq_filter, rank_filter_range _ ht]
  exact prefixSum_toNat _ t

/-- **Every run starts somewhere in the block.** -/
theorem prefixSum_flag_total : prefixSum p.flag 512 = p.classRuns.total := by
  rw [prefixSum_flag (Nat.le_refl _), ClassRuns.total]
  refine List.countP_eq_length.mpr fun i hi => decide_eq_true ?_
  have hlt := ClassRuns.lt_of_isStart (ClassRuns.mem_starts.mp hi)
  have hle : p.classRuns.n ≤ 256 := Nat.le_trans count_le slots_le_256
  exact Nat.lt_of_lt_of_le hlt (Nat.le_trans hle (by decide))

/-! ### The plan -/

variable (p) in
/-- `sh_local[s]`. -/
def localVal (s : ℕ) : ℤ := if p.active s then p.expert s else -1

variable (p) in
/-- The values with which the phases begin. -/
def val (mem : RunAddr → ℤ) (q : ℕ) : RunAddr → ℤ
  | .shLocal i => if 1 ≤ q ∧ i < p.slots then p.localVal i else mem (.shLocal i)
  | .shRes => if q = 0 then mem .shRes else if q = 1 then 0 else p.count
  | .shOrder i => if 2 ≤ q ∧ i < p.count then p.sorted i else mem (.shOrder i)
  | .shScan w => if 3 ≤ q ∧ w < 16 then p.scanned 5 w 31 else mem (.shScan w)
  | .runs j =>
    if 3 ≤ q ∧ 3 + p.slotsMax ≤ j ∧ j < 3 + p.slotsMax + p.count then
      p.sorted (j - (3 + p.slotsMax))
    else if 4 ≤ q ∧ j = 0 then p.classRuns.total
    else if 4 ≤ q ∧ 2 ≤ j ∧ j ≤ 2 + p.classRuns.total then p.classRuns.cut (j - 2)
    else mem (.runs j)

/-- The thread of that number. -/
def tid (i : ℕ) : Tid := Fin.ofNat 512 i

theorem tid_val (t : Tid) : tid t.val = t := Fin.ofNat_val_eq_self t

theorem tid_eq_iff {i : ℕ} (hi : i < 512) {t : Tid} : tid i = t ↔ i = t.val := by
  constructor
  · rintro rfl
    rw [tid, Fin.val_ofNat, Nat.mod_eq_of_lt hi]
  · rintro rfl
    exact tid_val t

variable (p) in
/-- Who may write where. -/
def perm : ℕ → RunAddr → Perm Tid
  | 0, .shLocal i => if i < p.slots then .owned (tid i) else .frozen
  | 0, .shRes => .owned (tid 0)
  | 1, .shOrder i => if i < p.count then .owned (tid (p.sorted i)) else .frozen
  | 1, .shRes => if 0 < p.count then .acc (tid (p.sorted (p.count - 1))) else .frozen
  | 2, .shScan w => if w < 16 then .owned (tid (w * 32 + 31)) else .frozen
  | 2, .runs j =>
    if 3 + p.slotsMax ≤ j ∧ j < 3 + p.slotsMax + p.count then .owned (tid (j - (3 + p.slotsMax)))
    else .frozen
  | 3, .runs j =>
    if j = 0 then .owned (tid 0)
    else if 2 ≤ j ∧ j < 2 + p.classRuns.total then .owned (tid (p.classRuns.cut (j - 2)))
    else if j = 2 + p.classRuns.total then .owned (tid 0)
    else .frozen
  | _, _ => .frozen

theorem acc_cases {q : ℕ} {a : RunAddr} {top : Tid} (h : p.perm q a = .acc top) :
    q = 1 ∧ a = .shRes ∧ 0 < p.count ∧ top = tid (p.sorted (p.count - 1)) := by
  unfold perm at h
  split at h
  case h_4 =>
    split at h
    · rename_i hpos
      exact ⟨rfl, rfl, hpos, (Perm.acc.inj h).symm⟩
    · cases h
  case h_7 => split at h <;> (try split at h) <;> (try split at h) <;> cases h
  case h_2 | h_8 => cases h
  all_goals split at h <;> cases h

theorem total_le : p.classRuns.total ≤ p.slotsMax :=
  Nat.le_trans ClassRuns.total_le (Nat.le_trans count_le p.slots_le)

/-- Where nobody writes, the value stays. -/
theorem val_of_frozen (mem : RunAddr → ℤ) {q : ℕ} {a : RunAddr} (ha : p.perm q a = .frozen) :
    p.val mem (q + 1) a = p.val mem q a := by
  have htotal := total_le (p := p)
  -- each address has its value from one phase on, and is not frozen before
  cases a with
  | shLocal i =>
    match q with
    | 0 =>
      simp only [perm] at ha
      split at ha
      · cases ha
      · rename_i hi
        simp [val, hi]
    | q + 1 => simp [val]
  | shOrder i =>
    match q with
    | 0 => simp [val]
    | 1 =>
      simp only [perm] at ha
      split at ha
      · cases ha
      · rename_i hi
        simp [val, hi]
    | q + 2 => simp [val]
  | shScan w =>
    match q with
    | 0 | 1 => simp [val]
    | 2 =>
      simp only [perm] at ha
      split at ha
      · cases ha
      · rename_i hw
        simp [val, hw]
    | q + 3 => simp [val]
  -- the number of slots grows in the phase of the ranks
  | shRes =>
    match q with
    | 0 => cases ha
    | 1 =>
      simp only [perm] at ha
      split at ha
      · cases ha
      · simp only [val]
        omega
    | q + 2 => simp [val]
  -- the table is written in the last two phases
  | runs j =>
    match q with
    | 0 | 1 => simp [val]
    | 2 =>
      simp only [perm] at ha
      split at ha
      · cases ha
      · rename_i hj
        simp [val, hj]
    | 3 =>
      simp only [perm] at ha
      split at ha
      · cases ha
      split at ha
      · cases ha
      split at ha
      · cases ha
      rename_i h0 h1 h2
      have h3 : ¬ (2 ≤ j ∧ j ≤ 2 + p.classRuns.total) := by omega
      simp [val, h0, h3]
    | q + 4 => simp [val]

variable (p) in
/-- The plan of the block. -/
def plan (mem : RunAddr → ℤ) : Plan Tid RunAddr ℤ Empty ℕ where
  warp := Tid.warp
  phases := 3
  perm := p.perm
  val := p.val mem
  within _ _ x := 0 ≤ x ∧ x ≤ p.count
  deposit i t := p.scanned i (Tid.warp t) (Tid.lane t)
  exchanges q _ := if q < 2 then 0 else 5
  flight _ _ _ _ := False
  noted _ _ _ _ := False
  frozen_val q a ha := val_of_frozen mem ha
  within_val q a top ha := by
    obtain ⟨rfl, rfl, -⟩ := acc_cases ha
    simp [val]

end Routing

end Dsv41Overlay.Cooperative
