import Dsv41Overlay.Cooperative.RunPlan

/-!
# Every thread of the block keeps to the plan

Phase by phase: what a thread computes from the values that the plan predicts for `sh_local`,
`sh_order` and the warps' totals is what the plan predicts for the addresses it writes, and it
writes all that are its own (`buildRuns_ok`).
-/

namespace Dsv41Overlay.Cooperative

open Cta Cta.Plan

namespace Routing

variable {p : Routing} {mem : RunAddr → ℤ} {t : Tid} {σ : Standing RunAddr ℤ}

/-! ### Local experts -/

theorem localVal_of_active {s : ℕ} (hs : s < p.slots) (ha : p.active s = true) :
    p.localVal s = p.cls s ∧ p.localVal s < 2 ^ 15 := by
  obtain ⟨hlo, hhi⟩ := p.expert_lt s hs ha
  simp only [localVal, ha, if_true, cls]
  omega

theorem localVal_nonneg {s : ℕ} (hs : s < p.slots) : 0 ≤ p.localVal s ↔ p.active s = true := by
  by_cases ha : p.active s = true
  · have := (localVal_of_active hs ha).1
    simp only [ha, iff_true]
    omega
  · simp [localVal, ha]

/-- The conversion to `int16_t` keeps a local expert, and `-1`. -/
theorem int16_localVal {s : ℕ} (hs : s < p.slots) :
    (if p.active s then int16 (p.expert s) else int16 (-1)) = p.localVal s := by
  by_cases ha : p.active s = true
  · obtain ⟨hlo, hhi⟩ := p.expert_lt s hs ha
    simp only [localVal, ha, if_true]
    exact Int.bmod_eq_of_le (by omega) (by omega)
  · simp only [localVal, ha, if_false, Bool.false_eq_true]
    exact Int.bmod_eq_of_le (by decide) (by decide)

theorem val_shLocal {q s : ℕ} (hq : 1 ≤ q) (hs : s < p.slots) :
    (p.plan mem).val q (.shLocal s) = p.localVal s := if_pos ⟨hq, hs⟩

/-- What a loop over `sh_local` reads. -/
theorem locals_val {q : ℕ} (hq : 1 ≤ q) :
    p.locals.map ((p.plan mem).val q) = (List.range p.slots).map p.localVal := by
  rw [MoeCoopParams.locals, List.map_map]
  exact List.map_congr_left fun s hs => val_shLocal hq (List.mem_range.mp hs)

theorem locals_frozen {q : ℕ} (hq : 1 ≤ q) : ∀ a ∈ p.locals, (p.plan mem).perm q a = .frozen := by
  intro a ha
  obtain ⟨s, -, rfl⟩ := List.mem_map.mp ha
  match q with
  | 1 | 2 | 3 => rfl
  | q + 4 => rfl

theorem runKey_eq {e : ℤ} {s : ℕ} (hs : s < p.slots) : runKey e s = e.toNat * 2 ^ 8 + s := by
  have hlt : s < 2 ^ 8 := Nat.lt_of_lt_of_le hs slots_le_256
  rw [runKey, ← Nat.shiftLeft_add_eq_or_of_lt hlt, Nat.shiftLeft_eq]

theorem zipIdx_map_range (f : ℕ → ℤ) (n : ℕ) :
    ((List.range n).map f).zipIdx = (List.range n).map fun u => (f u, u) :=
  List.ext_getElem (by simp) fun i _ _ => by simp

/-- Counting over `sh_local` is counting over the active slots. -/
theorem countP_locals {P : ℤ → ℕ → Bool} :
    (List.range p.slots).countP (fun u => decide (0 ≤ p.localVal u) && P (p.localVal u) u) =
      p.activeSlots.countP fun u => P (p.cls u) u := by
  rw [MoeCoopParams.activeSlots, List.countP_filter]
  refine List.countP_congr fun u hu => ?_
  have hu := List.mem_range.mp hu
  by_cases ha : p.active u = true
  · simp [ha, (localVal_of_active hu ha).1]
  · have hneg := (localVal_nonneg hu).not.mpr ha
    simp [ha, hneg]

/-- **The rank by counting.** -/
theorem slotRank_eq {s : ℕ} (hs : s ∈ p.activeSlots) :
    MoeCoopParams.slotRank ((List.range p.slots).map p.localVal) (runKey (p.localVal s) s) =
      rank p.key p.activeSlots s := by
  obtain ⟨hs, ha⟩ := mem_activeSlots.mp hs
  rw [MoeCoopParams.slotRank, zipIdx_map_range, List.countP_map]
  refine (countP_locals (P := fun e u => decide (runKey e u < runKey (p.localVal s) s))).trans ?_
  refine List.countP_congr fun u hu => ?_
  obtain ⟨hu, -⟩ := mem_activeSlots.mp hu
  rw [runKey_eq hu, runKey_eq hs, (localVal_of_active hs ha).1, Int.toNat_natCast,
    Int.toNat_natCast]
  rfl

/-- The first place of an expert, by counting. -/
theorem firstOf_eq (c : ℕ) :
    MoeCoopParams.firstOf ((List.range p.slots).map p.localVal) c = p.classRuns.first c := by
  rw [MoeCoopParams.firstOf, List.countP_map]
  refine (countP_locals (P := fun e _ => decide (e < c))).trans ?_
  exact List.countP_congr fun u _ => by simp

/-! ### Addresses -/

/-- Before the first barrier. -/
theorem owned_zero {a : RunAddr} (h : (p.plan mem).perm 0 a = .owned t) :
    (t.val < p.slots ∧ a = .shLocal t) ∨ (t.val = 0 ∧ a = .shRes) := by
  have hslots := slots_le_256 (p := p)
  -- in this phase a thread owns its own slot's expert, and thread `0` the count
  cases a with
  | shLocal i =>
    simp only [plan, perm] at h
    split at h
    · rename_i hi
      obtain rfl := (tid_eq_iff (by omega)).mp (Perm.owned.inj h)
      exact .inl ⟨hi, rfl⟩
    · cases h
  | shRes => exact .inr ⟨((tid_eq_iff (by decide)).mp (Perm.owned.inj h)).symm, rfl⟩
  | shOrder i | shScan i | runs i => cases h

/-- Between the first and the second barrier. -/
theorem owned_one {a : RunAddr} (h : (p.plan mem).perm 1 a = .owned t) :
    ∃ i < p.count, a = .shOrder i ∧ p.sorted i = t.val := by
  -- in this phase a place of the order is owned by the slot that goes there
  cases a with
  | shOrder i =>
    simp only [plan, perm] at h
    split at h
    · rename_i hi
      have hlt := sorted_lt hi
      exact ⟨i, hi, rfl, (tid_eq_iff (by omega)).mp (Perm.owned.inj h)⟩
    · cases h
  | shRes =>
    simp only [plan, perm] at h
    split at h <;> cases h
  | shLocal i | shScan i | runs i => cases h

/-- Between the second and the third barrier. -/
theorem owned_two {a : RunAddr} (h : (p.plan mem).perm 2 a = .owned t) :
    (t.val < p.count ∧ a = p.order t) ∨ (Tid.lane t = 31 ∧ a = .shScan (Tid.warp t)) := by
  have hslots := slots_le_256 (p := p)
  have hcount := count_le (p := p)
  -- a thread owns the copy of its place, the last lane of a warp the warp's sum
  cases a with
  | shScan w =>
    simp only [plan, perm] at h
    split at h
    · have ht := (tid_eq_iff (by omega)).mp (Perm.owned.inj h)
      refine .inr ⟨?_, congrArg RunAddr.shScan ?_⟩
      · simp only [Tid.lane]
        omega
      · simp only [Tid.warp]
        omega
    · cases h
  | runs j =>
    simp only [plan, perm] at h
    split at h
    · have ht := (tid_eq_iff (by omega)).mp (Perm.owned.inj h)
      refine .inl ⟨by omega, congrArg RunAddr.runs ?_⟩
      omega
    · cases h
  | shLocal i | shOrder i | shRes => cases h

/-- After the third barrier. -/
theorem owned_three {a : RunAddr} (h : (p.plan mem).perm 3 a = .owned t) :
    (∃ j < p.classRuns.total, a = MoeCoopParams.runStart j ∧ p.classRuns.cut j = t.val) ∨
      (t.val = 0 ∧ (a = .runs 0 ∨ a = MoeCoopParams.runStart p.classRuns.total)) := by
  -- a start of a run is owned by the thread of its first place, the ends by thread `0`
  cases a with
  | runs j =>
    simp only [plan, perm] at h
    split at h
    · rename_i hj
      exact .inr ⟨((tid_eq_iff (by decide)).mp (Perm.owned.inj h)).symm,
        .inl (congrArg RunAddr.runs hj)⟩
    split at h
    · rename_i hj
      have hcut : p.classRuns.cut (j - 2) < p.count := ClassRuns.cut_lt (by omega)
      have hcount := count_le (p := p)
      have hslots := slots_le_256 (p := p)
      refine .inl ⟨j - 2, by omega, congrArg RunAddr.runs (by omega), ?_⟩
      exact (tid_eq_iff (by omega)).mp (Perm.owned.inj h)
    split at h
    · rename_i hj
      exact .inr ⟨((tid_eq_iff (by decide)).mp (Perm.owned.inj h)).symm,
        .inr (congrArg RunAddr.runs hj)⟩
    · cases h
  | shLocal i | shOrder i | shRes | shScan i => cases h

theorem not_acc {q : ℕ} (hq : q ≠ 1) {a : RunAddr} {top : Tid} :
    (p.plan mem).perm q a ≠ .acc top := fun h => hq (acc_cases h).1

/-! ### The threads -/

/-- A thread that has settled its own may end a phase in which no copy is in flight. -/
theorem ends_of_settled {q : ℕ} (hσ : ∀ a, σ.pend a = none)
    (hmem : ∀ a, (p.plan mem).perm q a = .owned t → σ.settled a)
    (hacc : ∀ a, (p.plan mem).perm q a = .acc t → σ.hit a) : (p.plan mem).Ends t q σ :=
  ⟨fun a ha _ => .inl (hmem a ha), fun a ha => absurd (hσ a) ha, fun a ha => .inl (hacc a ha),
    fun a _ _ ha => by cases (hσ a).symm.trans ha⟩

theorem int16_tid (t : Tid) : int16 t = t.val := by
  have := t.isLt
  exact Int.bmod_eq_of_le (by omega) (by omega)

/-- A thread with an active slot. -/
theorem rankSlot_active {k : RunProg} (hσ : ∀ a, σ.pend a = none) (ht : t.val ∈ p.activeSlots)
    (hk : ∀ σ', (∀ a, σ'.pend a = none) → (p.plan mem).Ends t 1 σ' → (p.plan mem).Ok t k 1 0 σ') :
    (p.plan mem).Ok t (p.rankSlot t k) 1 0 σ := by
  obtain ⟨hslot, hactive⟩ := mem_activeSlots.mp ht
  -- the slot has a rank, and its rank is its place
  have hcount : 0 < p.count := List.length_pos_of_mem ht
  have hrank : rank p.key p.activeSlots t < p.count := rank_lt_length ht
  have hsorted : p.sorted (rank p.key p.activeSlots t) = t := sorted_rank ht
  -- a place holds this slot only if it is its rank
  have hplace : ∀ i < p.count, p.sorted i = t.val → i = rank p.key p.activeSlots t := by
    intro i hi hit
    obtain ⟨s, -, hs, hsi⟩ := exists_sorted hi
    rw [← hs, ← hsi, hit]
  -- the count is raised by every thread up to the number of active slots
  have hres : (p.plan mem).perm 1 .shRes = .acc (tid (p.sorted (p.count - 1))) := if_pos hcount
  have hend : (p.plan mem).val (1 + 1) .shRes = p.count := rfl
  have hval : (p.plan mem).val 2 (.shOrder (rank p.key p.activeSlots t)) = int16 t := by
    rw [int16_tid]
    exact (if_pos ⟨Nat.le_refl 2, hrank⟩).trans (congrArg _ hsorted)
  -- the thread reads the experts of all slots and stores its slot at its rank
  rw [MoeCoopParams.rankSlot, if_pos hslot]
  refine Ok.load_frozen rfl ?_
  rw [val_shLocal (Nat.le_refl 1) hslot]
  dsimp only
  rw [if_pos ((localVal_nonneg hslot).mpr hactive)]
  refine Ok.loads_frozen (locals_frozen (Nat.le_refl 1)) ?_
  rw [locals_val (Nat.le_refl 1), slotRank_eq ht, ← hval]
  refine Ok.store ((if_pos hrank).trans (congrArg Perm.owned ?_)) (hσ _) ?_
  · rw [hsorted, tid_val]
  -- then it raises the count to its rank plus one
  refine Ok.atomic (c := rank p.key p.activeSlots t + 1 = p.count) hres ?_ ?_ ?_ ?_
  -- that leaves the count within its bounds
  · rintro x ⟨hlo, hhi⟩
    exact ⟨Int.le_trans hlo (Int.le_max_left _ _), Int.max_le.mpr ⟨hhi, by exact_mod_cast hrank⟩⟩
  · exact hend ▸ Int.max_eq_left (by exact_mod_cast hrank)
  -- and the thread with the last rank leaves it at its end
  · rintro hlast x ⟨-, hhi⟩
    rw [hlast, hend]
    exact Int.max_eq_right hhi
  refine hk _ hσ (ends_of_settled hσ (fun a ha => ?_) (fun a ha => ?_))
  -- the thread has stored what it owns
  · obtain ⟨i, hi, rfl, hit⟩ := owned_one ha
    exact .inr (congrArg RunAddr.shOrder (hplace i hi hit))
  · obtain ⟨-, rfl, -, htop⟩ := acc_cases ha
    have hlt := sorted_lt (p := p) (i := p.count - 1) (by omega)
    have hlast := (tid_eq_iff (by omega)).mp htop.symm
    have := hplace _ (by omega) hlast
    exact .inr ⟨rfl, by omega⟩

/-- A thread without one. -/
theorem rankSlot_idle {k : RunProg} (hσ : ∀ a, σ.pend a = none) (ht : t.val ∉ p.activeSlots)
    (hk : ∀ σ', (∀ a, σ'.pend a = none) → (p.plan mem).Ends t 1 σ' → (p.plan mem).Ok t k 1 0 σ') :
    (p.plan mem).Ok t (p.rankSlot t k) 1 0 σ := by
  -- the thread of an inactive slot owns nothing
  have hgo : (p.plan mem).Ok t k 1 0 σ := by
    refine hk σ hσ (ends_of_settled hσ (fun a ha => ?_) (fun a ha => ?_))
    · obtain ⟨i, hi, -, hit⟩ := owned_one ha
      exact absurd (hit ▸ sorted_mem hi) ht
    · obtain ⟨-, -, hcount, htop⟩ := acc_cases ha
      have hmem := sorted_mem (p := p) (i := p.count - 1) (by omega)
      have hlt := sorted_lt (p := p) (i := p.count - 1) (by omega)
      exact absurd ((tid_eq_iff (by omega)).mp htop.symm ▸ hmem) ht
  unfold MoeCoopParams.rankSlot
  by_cases hslot : t.val < p.slots
  -- it reads its expert and goes on
  · rw [if_pos hslot]
    refine Ok.load_frozen rfl ?_
    rw [val_shLocal (Nat.le_refl 1) hslot]
    dsimp only
    rwa [if_neg fun h => ht (mem_activeSlots.mpr ⟨hslot, (localVal_nonneg hslot).mp h⟩)]
  · rw [if_neg hslot]
    exact hgo

theorem val_shOrder {i : ℕ} (hi : i < p.count) :
    (p.plan mem).val 2 (.shOrder i) = p.sorted i := if_pos ⟨Nat.le_refl 2, hi⟩

/-- `order[t] = sh_order[t]`. -/
theorem copyOrder_ok {i : ℕ} {k : RunProg} (hσ : ∀ a, σ.pend a = none) (ht : t.val < p.count)
    (hk : ∀ σ', (∀ a, σ'.pend a = none) → σ'.settled (p.order t) → (p.plan mem).Ok t k 2 i σ') :
    (p.plan mem).Ok t (p.copyOrder t k) 2 i σ := by
  have hcount := count_le (p := p)
  -- the place of the thread in the table
  have hplace : 3 + p.slotsMax ≤ 2 + p.slotsMax + 1 + t.val ∧
      2 + p.slotsMax + 1 + t.val < 3 + p.slotsMax + p.count := by omega
  have hsub : 2 + p.slotsMax + 1 + t.val - (3 + p.slotsMax) = t.val := by omega
  have hperm : (p.plan mem).perm 2 (p.order t) = .owned t := by
    refine (if_pos hplace).trans (congrArg Perm.owned ?_)
    rw [hsub, tid_val]
  have hval : (p.plan mem).val 3 (p.order t) = (p.plan mem).val 2 (.shOrder t) := by
    rw [val_shOrder ht]
    refine (if_pos ⟨Nat.le_refl 3, hplace⟩).trans ?_
    rw [hsub]
  -- what it reads was frozen by the phase before
  refine Ok.load_frozen rfl ?_
  rw [← hval]
  exact Ok.store hperm (hσ _) (hk _ hσ (.inr rfl))

/-- The expert of a place of the order. -/
theorem localVal_sorted {i : ℕ} (hi : i < p.count) :
    p.localVal (p.sorted i) = p.classRuns.cls i := by
  obtain ⟨hs, ha⟩ := mem_activeSlots.mp (sorted_mem hi)
  exact (localVal_of_active hs ha).1

/-- What a thread reads of a place of the order. -/
theorem loadExpert_ok {i j : ℕ} {k : ℤ → RunProg} (hi : i < p.count)
    (hk : (p.plan mem).Ok t (k (p.classRuns.cls i)) 2 j σ) :
    (p.plan mem).Ok t (.load (.shOrder i) fun s => .load (.shLocal s.toNat) k) 2 j σ := by
  have hs := (mem_activeSlots.mp (sorted_mem hi)).1
  refine Ok.load_frozen rfl (Ok.load_frozen rfl ?_)
  rw [val_shOrder hi, Int.toNat_natCast, val_shLocal (by decide) hs, localVal_sorted hi]
  exact hk

/-- **The flags are the starts of the runs.** -/
theorem startFlag_ok {k : ℤ → RunProg} (hσ : ∀ a, σ.pend a = none)
    (hk : ∀ σ', (∀ a, σ'.pend a = none) → (t.val < p.count → σ'.settled (p.order t)) →
      (p.plan mem).Ok t (k (p.flag t)) 2 0 σ') :
    (p.plan mem).Ok t (p.startFlag t p.count k) 2 0 σ := by
  unfold MoeCoopParams.startFlag
  by_cases ht : t.val < p.count
  -- behind the last place there is nothing to copy
  swap
  · have hflag : p.flag t = 0 := by simp [flag, ClassRuns.isStart, classRuns, ht]
    rw [if_neg (by exact_mod_cast ht)]
    have hgo := hk σ hσ fun h => absurd h ht
    rwa [hflag] at hgo
  rw [if_pos (by exact_mod_cast ht)]
  refine loadExpert_ok ht (Ok.loads_frozen (locals_frozen (by decide)) ?_)
  rw [locals_val (by decide)]
  -- at `0` a run starts
  by_cases h0 : t.val = 0
  · have hpos : 0 < p.count := h0 ▸ ht
    have hflag : p.flag t = 1 := by simp [flag, ClassRuns.isStart, classRuns, hpos, h0]
    rw [if_pos h0]
    refine copyOrder_ok hσ ht fun σ' hσ' hset => ?_
    have hgo := hk σ' hσ' fun _ => hset
    rwa [hflag] at hgo
  rw [if_neg h0]
  -- elsewhere the expert before is read too
  refine loadExpert_ok (by omega) (copyOrder_ok hσ ht fun σ' hσ' hset => ?_)
  have hgo := hk σ' hσ' fun _ => hset
  -- the flag is what the thread computes
  convert hgo using 2
  rw [firstOf_eq]
  have hn : t.val < p.classRuns.n := ht
  simp only [flag, ClassRuns.isStart, hn, h0, decide_true, decide_false, Bool.true_and,
    Bool.false_or, ← Bool.decide_or, ne_eq, Int.ofNat_inj]
  -- the condition as an integer
  have hwidth : ((p.classRuns.width : ℕ) : ℤ) = 8 := rfl
  rw [hwidth]
  split
  · rename_i h
    rw [decide_eq_true h]
    rfl
  · rename_i h
    rw [decide_eq_false h]
    rfl

/-! ### The scan -/

theorem shflUp_warp (t : Tid) (o : ℕ) (ho : o < 32) :
    Tid.warp (MoeCoopParams.shflUp t o) = Tid.warp t := by
  unfold MoeCoopParams.shflUp
  split
  · rename_i h
    simp only [Tid.warp, Tid.lane] at h ⊢
    omega
  · rfl

theorem shflUp_lane (t : Tid) (o : ℕ) (ho : o ≤ Tid.lane t) :
    Tid.lane (MoeCoopParams.shflUp t o) = Tid.lane t - o := by
  rw [MoeCoopParams.shflUp, if_pos ho]
  simp only [Tid.lane] at ho ⊢
  omega

/-- A round of the scan. -/
theorem deposit_succ (i : ℕ) (t : Tid) :
    (p.plan mem).deposit (i + 1) t =
      if 2 ^ i ≤ Tid.lane t then
        (p.plan mem).deposit i t + (p.plan mem).deposit i (MoeCoopParams.shflUp t (2 ^ i))
      else (p.plan mem).deposit i t := by
  simp only [plan, scanned_succ, scanStep]
  split
  · rename_i h
    have hlow : 2 ^ i < 32 := by
      have : Tid.lane t < 32 := Nat.mod_lt _ (by decide)
      omega
    rw [shflUp_warp t _ hlow, shflUp_lane t _ h, Int.natCast_add]
  · rfl

/-- **The rounds of the scan** from round `i` on. -/
theorem warpScan_ok {k : ℤ → RunProg} (hk : (p.plan mem).Ok t (k ((p.plan mem).deposit 5 t)) 2 5 σ)
    {m i : ℕ} (hm : i + m = 5) :
    (p.plan mem).Ok t
      (MoeCoopParams.warpScan t ((List.range' i m).map (2 ^ ·)) ((p.plan mem).deposit i t) k)
      2 i σ := by
  induction m generalizing i with
  | zero =>
    obtain rfl : i = 5 := by omega
    exact hk
  | succ m ih =>
    have hlow : 2 ^ i < 32 := Nat.pow_lt_pow_right (by decide) (show i < 5 by omega)
    rw [List.range'_succ, List.map_cons, MoeCoopParams.warpScan]
    refine Ok.shfl rfl (shflUp_warp t _ hlow) (show i < 5 by omega) ?_
    rw [← deposit_succ]
    exact ih (by omega)

/-! ### The table -/

/-- What a thread reads of the warps' totals. -/
theorem scan_val :
    ((List.range 16).map RunAddr.shScan).map ((p.plan mem).val 3) =
      (List.range 16).map fun w => ((p.scanned 5 w 31 : ℕ) : ℤ) := by
  rw [List.map_map]
  exact List.map_congr_left fun w hw => if_pos ⟨Nat.le_refl 3, List.mem_range.mp hw⟩

theorem sum_take_scan {n : ℕ} (hn : n ≤ 16) :
    (((List.range 16).map fun w => ((p.scanned 5 w 31 : ℕ) : ℤ)).take n).sum =
      ((prefixSum p.flag (n * 32) : ℕ) : ℤ) := by
  rw [← prefixSum_scanned, ← List.map_take, List.take_range, Nat.min_eq_left hn, prefixSum]
  generalize List.range n = l
  induction l with
  | nil => rfl
  | cons w l ih => rw [List.map_cons, List.sum_cons, ih, List.map_cons, List.sum_cons,
      Int.natCast_add]

/-- **A run id counts the runs that start before it.** -/
theorem runId_eq (t : Tid) :
    ((prefixSum p.flag (Tid.warp t * 32) : ℕ) : ℤ) + (p.plan mem).deposit 5 t - p.flag t =
      (rank id p.classRuns.starts t : ℕ) := by
  have hlane : Tid.lane t < 32 := Nat.mod_lt _ (by decide)
  have ht : Tid.warp t * 32 + Tid.lane t = t.val := Nat.div_add_mod' t.val 32
  have hsum : prefixSum p.flag (Tid.warp t * 32) + p.scanned 5 (Tid.warp t) (Tid.lane t) =
      rank id p.classRuns.starts t + p.flag t := by
    rw [scanned_eq hlane, ← prefixSum_add, ← Nat.add_assoc, ht, prefixSum_succ,
      prefixSum_flag (Nat.le_of_lt t.isLt)]
  have hcast : (p.plan mem).deposit 5 t = (p.scanned 5 (Tid.warp t) (Tid.lane t) : ℕ) := rfl
  rw [hcast]
  omega

/-- After the last barrier. -/
theorem writeRuns_ok (hσ : ∀ a, σ.pend a = none) :
    (p.plan mem).Ok t
      (MoeCoopParams.writeRuns t p.count (p.flag t) ((p.plan mem).deposit 5 t)) 3 5 σ := by
  have htotal := total_le (p := p)
  -- the sums of all warps are frozen
  have hscan : ∀ a ∈ (List.range 16).map RunAddr.shScan, (p.plan mem).perm 3 a = .frozen := by
    intro a ha
    obtain ⟨w, -, rfl⟩ := List.mem_map.mp ha
    rfl
  have hwarp : Tid.warp t ≤ 16 := by
    have := t.isLt
    simp only [Tid.warp]
    omega
  -- their sum is the number of runs
  have hsum := sum_take_scan (p := p) (Nat.le_refl 16)
  rw [List.take_of_length_le (by simp), prefixSum_flag_total] at hsum
  unfold MoeCoopParams.writeRuns
  refine Ok.loads_frozen hscan ?_
  rw [scan_val]
  dsimp only
  rw [sum_take_scan hwarp, runId_eq, hsum, Int.toNat_natCast, Int.toNat_natCast]
  refine Ok.storeIf (fun hstart => ?_) (Ok.storeIf (fun h0 => ?_) (Ok.storeIf (fun h0 => ?_) ?_))
  · -- the run of this start
    have hstart : p.classRuns.isStart t = true := by
      by_contra h
      simp [flag, h] at hstart
    obtain ⟨hlt, hcut⟩ := ClassRuns.cut_rank hstart
    have hsub : 2 + rank id p.classRuns.starts t - 2 = rank id p.classRuns.starts t := by omega
    refine ⟨?_, hσ _, ?_⟩
    · simp only [plan, perm, MoeCoopParams.runStart]
      rw [if_neg (by omega), if_pos (by omega), hsub, hcut, tid_val]
    · simp only [plan, val, MoeCoopParams.runStart]
      rw [if_neg (by omega), if_neg (by omega), if_pos (by omega), hsub, hcut]
  -- thread `0` closes the last run
  · refine ⟨?_, hσ _, ?_⟩
    · simp only [plan, perm, MoeCoopParams.runStart]
      rw [if_neg (by omega), if_neg (by omega), if_pos trivial, ← tid_val t, h0]
    · simp only [plan, val, MoeCoopParams.runStart]
      rw [if_neg (by omega), if_neg (by omega), if_pos (by omega), Nat.add_sub_cancel_left,
        ClassRuns.cut_total]
      rfl
  -- thread `0` writes the number of runs
  · refine ⟨?_, hσ _, ?_⟩
    · simp only [plan, perm]
      rw [if_pos trivial, ← tid_val t, h0]
    · simp [plan, val]
  · refine Ok.done rfl rfl (ends_of_settled hσ (fun a ha => ?_) (fun a ha => ?_)) hσ
    -- every start that the thread owns has been stored
    · obtain ⟨j, hj, rfl, hcut⟩ | ⟨h0, rfl | rfl⟩ := owned_three ha
      · -- the cut point `j` is a start, and `j` its rank
        have hstart : p.classRuns.isStart t = true := hcut ▸ ClassRuns.isStart_cut hj
        obtain ⟨hlt, hcut'⟩ := ClassRuns.cut_rank hstart
        have hj' : j = rank id p.classRuns.starts t := by
          rcases Nat.lt_trichotomy j (rank id p.classRuns.starts t) with h | h | h
          · have := ClassRuns.cut_lt_cut h (Nat.le_of_lt hlt)
            omega
          · exact h
          · have := ClassRuns.cut_lt_cut h (Nat.le_of_lt hj)
            omega
        refine .inl (.inl (.inr ⟨?_, hj' ▸ rfl⟩))
        simp [flag, hstart]
      · exact .inr ⟨h0, rfl⟩
      · exact .inl (.inr ⟨h0, rfl⟩)
    · exact absurd ha (not_acc (by decide))

/-- From the second barrier on. -/
theorem cutRuns_ok (hσ : ∀ a, σ.pend a = none) : (p.plan mem).Ok t (p.cutRuns t) 2 0 σ := by
  unfold MoeCoopParams.cutRuns
  refine Ok.load_frozen rfl ?_
  -- the flags of the warp are summed by its lanes
  refine startFlag_ok hσ fun σ' hσ' hset => ?_
  rw [List.range_eq_range']
  have hflag : (p.flag t : ℤ) = (p.plan mem).deposit 0 t := by
    refine congrArg (fun i => ((p.flag i : ℕ) : ℤ)) ?_
    exact (Nat.div_add_mod' t.val 32).symm
  rw [hflag]
  refine warpScan_ok ?_ rfl
  -- the last lane stores the sum of its warp
  refine Ok.storeIf (fun hlane => ?_) ?_
  · have hw : Tid.warp t < 16 := by
      have := t.isLt
      simp only [Tid.warp]
      omega
    have ht : Tid.warp t * 32 + 31 = t.val := by
      simp only [Tid.lane, Tid.warp] at hlane ⊢
      omega
    refine ⟨(if_pos hw).trans (congrArg Perm.owned (ht ▸ tid_val t)), hσ' _, ?_⟩
    refine Eq.trans ?_ (if_pos ⟨Nat.le_refl 3, hw⟩).symm
    rw [← hlane]
    rfl
  refine Ok.sync (show 2 < 3 by decide) rfl (ends_of_settled hσ' (fun a ha => ?_) fun a ha =>
    absurd ha (not_acc (by decide))) ?_
  -- both kinds of places that the thread owns are settled
  · obtain ⟨ht, rfl⟩ | ⟨hlane, rfl⟩ := owned_two ha
    · exact .inl (hset ht)
    · exact .inr ⟨hlane, rfl⟩
  · rw [← hflag]
    exact writeRuns_ok hσ'

/-- **Every thread keeps to the plan.** -/
theorem buildRuns_ok (p : Routing) (mem : RunAddr → ℤ) (t : Tid) :
    (p.plan mem).Ok t (p.buildRuns t) 0 0 (Standing.fresh (fun _ => none) 0) := by
  unfold MoeCoopParams.buildRuns
  refine Ok.storeIf (fun hslot => ?_) (Ok.storeIf (fun h0 => ?_) ?_)
  -- the thread stores its own slot's expert, and thread `0` resets the count
  · refine ⟨(if_pos hslot).trans (congrArg Perm.owned (tid_val t)), rfl, ?_⟩
    exact (int16_localVal hslot).trans (val_shLocal (Nat.le_refl 1) hslot).symm
  · exact ⟨congrArg Perm.owned (h0 ▸ tid_val t), rfl, rfl⟩
  -- both are settled when the phase ends
  refine Ok.sync (show 0 < 3 by decide) rfl (ends_of_settled (fun _ => rfl) (fun a ha => ?_)
    fun a ha => absurd ha (not_acc (by decide))) ?_
  · obtain ⟨hslot, rfl⟩ | ⟨h0, rfl⟩ := owned_zero ha
    · exact .inl (.inr ⟨hslot, rfl⟩)
    · exact .inr ⟨h0, rfl⟩
  have hnext : ∀ σ', (∀ a, σ'.pend a = none) → (p.plan mem).Ends t 1 σ' →
      (p.plan mem).Ok t (.sync (p.cutRuns t)) 1 0 σ' := fun σ' hσ' hends =>
    Ok.sync (show 1 < 3 by decide) rfl hends (cutRuns_ok hσ')
  -- then the ranks of the active slots are taken
  by_cases ht : t.val ∈ p.activeSlots
  · exact rankSlot_active (fun _ => rfl) ht hnext
  · exact rankSlot_idle (fun _ => rfl) ht hnext

end Routing

end Dsv41Overlay.Cooperative
