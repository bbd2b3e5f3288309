import Dsv41Overlay.Experts.FatPlan

/-!
# The main loop keeps to the plan

When a thread comes to the barrier of iteration `kt`, its copies in flight are its words of the K
tiles from `kt` on that have been issued (`flying`). The wait before the barrier lets all but the
last two groups land, that is K tile `kt`; the empty groups at the tail keep the count. Behind
the barrier the tile is frozen, and the thread reads what the plan says (`iteration_ok`).
-/

namespace Dsv41Overlay.Experts

open Cta Cta.Plan FmConfig

universe u

variable {V : Type u}

/-! ### Tiles and stages -/

/-- The first K tile from `lo` on that goes to a stage. -/
def nextTile (lo stage : ℕ) : ℕ := lo + (stage + 4 - lo % 4) % 4

theorem nextTile_eq {lo stage q : ℕ} (hlo : lo ≤ q) (hhi : q < lo + 4) (hstage : q % 4 = stage) :
    nextTile lo stage = q := by
  unfold nextTile
  omega

theorem nextTile_spec (lo : ℕ) {stage : ℕ} (h : stage < 4) :
    lo ≤ nextTile lo stage ∧ nextTile lo stage < lo + 4 ∧ nextTile lo stage % 4 = stage := by
  unfold nextTile
  omega

theorem foldl_append_flatMap {ι α : Type*} (f : ι → List α) (l : List ι) (acc : List α) :
    l.foldl (fun acc i => acc ++ f i) acc = acc ++ l.flatMap f := by
  induction l generalizing acc with
  | nil => exact (List.append_nil acc).symm
  | cons i l ih => rw [List.foldl_cons, ih, List.flatMap_cons, List.append_assoc]

namespace FmKernel

variable (κ : FmKernel V) (g : FmSegment κ.toFmConfig V) (t : FmTid)

/-- The words in flight of the K tiles from `lo` up to `hi`; tile `q` is in group `C + q`. -/
def flying (C lo hi x : ℕ) : Option (V × ℕ) :=
  (κ.locate x).bind fun sl =>
    if sl.2.number % 256 = t.val ∧ nextTile lo sl.1 < hi then
      some (κ.tileWord g (nextTile lo sl.1) sl.2 (x % 4), C + nextTile lo sl.1)
    else none

variable {κ g t} {segs : List (FmSegment κ.toFmConfig V)} {mem : ℕ → V} {p : ℕ}
  {σ : Standing ℕ V}

theorem flying_eq_some {C lo hi x gr : ℕ} {v : V} (h : κ.flying g t C lo hi x = some (v, gr)) :
    ∃ stage sl, κ.locate x = some (stage, sl) ∧ stage < 4 ∧ sl.number % 256 = t.val ∧
      nextTile lo stage < hi ∧ v = κ.tileWord g (nextTile lo stage) sl (x % 4) ∧
      gr = C + nextTile lo stage := by
  rw [flying] at h
  obtain ⟨⟨stage, sl⟩, hloc, h⟩ := Option.bind_eq_some_iff.mp h
  dsimp only at h
  split at h
  · rename_i hcond
    obtain ⟨rfl, rfl⟩ := Prod.mk.inj (Option.some.inj h)
    exact ⟨stage, sl, hloc, (word_of_locate hloc).1, hcond.1, hcond.2, rfl, rfl⟩
  · exact nomatch h

/-- A word is in flight if its tile is. -/
theorem flying_of_lt {C lo hi x stage : ℕ} {sl : Slot} (hloc : κ.locate x = some (stage, sl))
    (ht : sl.number % 256 = t.val) {q : ℕ} (hlo : lo ≤ q) (hq : q < lo + 4) (hstage : q % 4 = stage)
    (hhi : q < hi) : κ.flying g t C lo hi x = some (κ.tileWord g q sl (x % 4), C + q) := by
  have hnext : nextTile lo stage = q := nextTile_eq hlo hq hstage
  rw [flying, hloc, Option.bind_some]
  dsimp only
  rw [hnext, if_pos ⟨ht, hhi⟩]

theorem flying_of_le {C lo hi x stage : ℕ} {sl : Slot} (hloc : κ.locate x = some (stage, sl))
    {q : ℕ} (hlo : lo ≤ q) (hq : q < lo + 4) (hstage : q % 4 = stage) (hhi : hi ≤ q) :
    κ.flying g t C lo hi x = none := by
  have hnext : nextTile lo stage = q := nextTile_eq hlo hq hstage
  rw [flying, hloc, Option.bind_some]
  dsimp only
  rw [hnext, if_neg fun hand => Nat.not_lt_of_le hhi hand.2]

/-- Behind the last tile nothing is in flight. -/
theorem flying_none {C lo hi : ℕ} (h : hi ≤ lo) (x : ℕ) : κ.flying g t C lo hi x = none := by
  cases hf : κ.flying g t C lo hi x with
  | none => rfl
  | some y =>
    obtain ⟨stage, sl, hloc, hst, -, hlt, -⟩ := flying_eq_some hf
    have := nextTile_spec lo hst
    omega

/-! ### Phases of the loop -/

theorem place_lt {y : FmSegment κ.toFmConfig V × ℕ} (h : κ.place segs p = some y) :
    p < (segs.map κ.phasesOf).sum := by
  induction segs generalizing p with
  | nil => exact nomatch h
  | cons g gs ih =>
    rw [List.map_cons, List.sum_cons]
    rw [place] at h
    split at h
    · omega
    · have := ih h
      omega

theorem perm_eq {o : ℕ} (h : κ.place segs p = some (g, o)) (x : ℕ) :
    (κ.plan segs mem).perm p x = κ.permAt o x := by
  simp only [plan, h]

theorem val_succ {o : ℕ} (h : κ.place segs p = some (g, o)) (x : ℕ) :
    (κ.plan segs mem).val (p + 1) x =
      (κ.written g o x).getD ((κ.plan segs mem).val p x) := by
  simp only [plan, valAt, h]

/-- A word of a stage, in the loop. -/
theorem perm_loop {o x stage : ℕ} {sl : Slot} (h : κ.place segs p = some (g, o))
    (ho : o ≤ κ.kTiles) (hloc : κ.locate x = some (stage, sl)) :
    (κ.plan segs mem).perm p x =
      if 0 < o ∧ stage = (o - 1) % 4 then .frozen else .owned (fmTid sl.number) := by
  rw [perm_eq h, permAt, if_pos ho, hloc]

/-- A tile that has landed. -/
theorem val_tile {kt x : ℕ} {sl : Slot} (h : κ.place segs p = some (g, kt)) (hkt : kt < κ.kTiles)
    (hloc : κ.locate x = some (kt % 4, sl)) :
    (κ.plan segs mem).val (p + 1) x = κ.tileWord g kt sl (x % 4) := by
  rw [val_succ h, written, if_pos hkt, hloc, Option.bind_some, if_pos rfl, Option.getD_some]

/-- All other words keep their values in the loop. -/
theorem val_rest {kt x : ℕ} (h : κ.place segs p = some (g, kt)) (hkt : kt ≤ κ.kTiles)
    (hne : ∀ sl, kt < κ.kTiles → κ.locate x ≠ some (kt % 4, sl)) :
    (κ.plan segs mem).val (p + 1) x = (κ.plan segs mem).val p x := by
  -- the phase writes no word of this place
  have hwritten : κ.written g kt x = none := by
    rw [written]
    by_cases hlt : kt < κ.kTiles
    · rw [if_pos hlt]
      cases hloc : κ.locate x with
      | none => rfl
      | some sl =>
        obtain ⟨stage, sl⟩ := sl
        rw [Option.bind_some, if_neg]
        rintro rfl
        exact hne sl hlt hloc
    · rw [if_neg hlt, if_neg (by omega)]
  rw [val_succ h, hwritten, Option.getD_none]

theorem not_acc_at {q x : ℕ} {top : FmTid} : (κ.plan segs mem).perm q x ≠ .acc top := by
  simp only [plan]
  split
  · rw [permAt]
    split
    · split
      · split <;> exact nofun
      · exact nofun
    · split <;> exact nofun
  · exact nofun

/-! ### Loading -/

/-- **Loading a tile** into a stage that nobody reads: its words are in flight in the group that
the thread commits; behind the last tile the group is empty. -/
theorem loadTile_ok {o kt lo C i : ℕ} {k : FmProg κ.toFmConfig V}
    (hplace : κ.place segs p = some (g, o)) (ho : o ≤ κ.kTiles) (hlo : lo ≤ kt) (hhi : kt < lo + 4)
    (hstage : ¬ (0 < o ∧ kt % 4 = (o - 1) % 4))
    (hpend : σ.pend = κ.flying g t C lo (min kt κ.kTiles)) (hcommitted : σ.committed = C + kt)
    (hk : (κ.plan segs mem).Ok t k p i
      { σ with pend := κ.flying g t C lo (min (kt + 1) κ.kTiles), committed := C + (kt + 1) }) :
    (κ.plan segs mem).Ok t (κ.loadTile g t kt k) p i σ := by
  -- without a copy the tile is an empty group
  have hcommit : (κ.plan segs mem).Ok t (.commit k) p i
      { σ with pend := κ.flying g t C lo (min (kt + 1) κ.kTiles) } := by
    refine Ok.commit ?_
    rwa [hcommitted, Nat.add_assoc]
  rw [loadTile]
  by_cases hkt : kt < κ.kTiles
  swap
  · have hmin : min (kt + 1) κ.kTiles = min kt κ.kTiles := by omega
    rw [hmin, ← hpend] at hcommit
    rwa [if_neg hkt]
  -- the tile is loaded, word by word
  rw [if_pos hkt, loadStage_eq]
  have hst : kt % 4 < 4 := Nat.mod_lt kt (by decide)
  refine Ok.copies (fun xv hxv => ?_) (nodup_map_loads hst kt) (fun xv hxv => ?_)
    (fun x hx => ?_) hcommit
  -- each word is the thread's own and no copy to it is in flight
  · obtain ⟨sl, hloc, ht, hv⟩ := (mem_loads hst).mp hxv
    refine ⟨?_, ?_, g, o, hplace, ho, kt, hkt, sl, hloc, ht, hv⟩
    · rw [perm_loop hplace ho hloc, if_neg hstage, fmTid_eq_iff.mpr ht]
    · rw [hpend]
      exact flying_of_le hloc hlo hhi rfl (by omega)
  -- after the copy it is in flight, with its tile
  · obtain ⟨sl, hloc, ht, hv⟩ := (mem_loads hst).mp hxv
    rw [hv, hcommitted]
    exact flying_of_lt hloc ht hlo hhi rfl (by omega)
  · -- the words of other tiles and of other threads
    rw [mem_map_loads hst] at hx
    rw [hpend, flying, flying]
    cases hloc : κ.locate x with
    | none => rfl
    | some sl =>
      obtain ⟨stage, sl⟩ := sl
      rw [Option.bind_some, Option.bind_some]
      dsimp only
      have hspec := nextTile_spec lo (word_of_locate hloc).1
      by_cases ht : sl.number % 256 = t.val
      · have hne : stage ≠ kt % 4 := by
          rintro rfl
          exact hx ⟨sl, hloc, ht⟩
        have hiff : nextTile lo stage < min (kt + 1) κ.kTiles ↔
            nextTile lo stage < min kt κ.kTiles := by omega
        simp only [hiff]
      · rw [if_neg fun h => ht h.1, if_neg fun h => ht h.1]

/-! ### Waiting for a tile -/

/-- A thread's words of the stage that lands. -/
def Landed (κ : FmKernel V) (t : FmTid) (kt x : ℕ) : Prop :=
  ∃ sl, κ.locate x = some (kt % 4, sl) ∧ sl.number % 256 = t.val

/-- **The wait and the barrier of an iteration**: K tile `kt` has landed everywhere, and the next
two are in flight. -/
theorem wait_sync_ok {kt C : ℕ} {k : FmProg κ.toFmConfig V}
    (hplace : κ.place segs p = some (g, kt)) (hnext : κ.place segs (p + 1) = some (g, kt + 1))
    (hkt : kt < κ.kTiles)
    (hk : (κ.plan segs mem).Ok t k (p + 1) 0
      (Standing.fresh (κ.flying g t C (kt + 1) (min (kt + 3) κ.kTiles)) (C + (kt + 3)))) :
    (κ.plan segs mem).Ok t (.wait 2 (.sync k)) p 0
      (Standing.fresh (κ.flying g t C kt (min (kt + 3) κ.kTiles)) (C + (kt + 3))) := by
  -- the barrier after the wait
  set hi := min (kt + 3) κ.kTiles with hhi
  have hsync : (κ.plan segs mem).Ok t (.sync k) p 0
      { (Standing.fresh (κ.flying g t C kt hi) (C + (kt + 3))) with
        pend := κ.flying g t C (kt + 1) hi
        settled := Landed κ t kt } := by
    refine Ok.sync (place_lt hplace) rfl ⟨fun x hperm _ => ?_, fun x hx => ?_,
      fun x hx => absurd hx not_acc_at, fun x v gr hx => ?_⟩ hk
    · -- what the thread owns has landed, or keeps its value
      by_cases hloc : ∃ sl, κ.locate x = some (kt % 4, sl)
      · obtain ⟨sl, hloc⟩ := hloc
        rw [perm_loop hplace (Nat.le_of_lt hkt) hloc, if_neg (by omega)] at hperm
        exact .inl ⟨sl, hloc, fmTid_eq_iff.mp (Perm.owned.inj hperm)⟩
      · exact .inr (val_rest hplace (Nat.le_of_lt hkt) fun sl _ h => hloc ⟨sl, h⟩).symm
    -- what is still in flight belongs to later tiles
    · obtain ⟨y, hy⟩ := Option.ne_none_iff_exists'.mp hx
      obtain ⟨stage, sl, hloc, hst, ht, hlt, -⟩ := flying_eq_some hy
      have hspec := nextTile_spec (kt + 1) hst
      rw [perm_loop hnext hkt hloc, if_neg (by omega), fmTid_eq_iff.mpr ht]
    · obtain ⟨stage, sl, hloc, hst, ht, hlt, hv, -⟩ := flying_eq_some hx
      have hspec := nextTile_spec (kt + 1) hst
      exact ⟨g, kt + 1, hnext, hkt, nextTile (kt + 1) stage, by omega, sl,
        hspec.2.2.symm ▸ hloc, ht, hv⟩
  refine Ok.wait (fun x v gr hx hlt => ?_) (fun x v gr hx hge => ?_) (fun x hx => ?_) hsync
  · -- the tile of this iteration
    obtain ⟨stage, sl, hloc, hst, ht, -, hv, hgr⟩ := flying_eq_some hx
    have hspec := nextTile_spec kt hst
    have hlt : gr + 2 < C + (kt + 3) := hlt
    have hq : nextTile kt stage = kt := by omega
    obtain rfl : kt % 4 = stage := by omega
    rw [hq] at hv
    exact ⟨hv.trans (val_tile hplace hkt hloc).symm, ⟨sl, hloc, ht⟩,
      flying_of_le hloc (q := kt + 4) (by omega) (by omega) (by omega) (by omega)⟩
  -- the later tiles stay in flight
  · obtain ⟨stage, sl, hloc, hst, ht, hhi', hv, hgr⟩ := flying_eq_some hx
    have hspec := nextTile_spec kt hst
    have hge : ¬ gr + 2 < C + (kt + 3) := hge
    rw [hv, hgr]
    exact flying_of_lt hloc ht (by omega) (by omega) hspec.2.2 hhi'
  -- nothing else is in flight or has landed
  · have hx : κ.flying g t C kt hi x = none := hx
    constructor
    · cases hf : κ.flying g t C (kt + 1) hi x with
      | none => rfl
      | some y =>
        obtain ⟨stage, sl, hloc, hst, ht, hlt, -⟩ := flying_eq_some hf
        have hspec := nextTile_spec (kt + 1) hst
        have hsome : κ.flying g t C kt hi x = some _ :=
          flying_of_lt hloc ht (q := nextTile (kt + 1) stage) (by omega) (by omega) hspec.2.2 hlt
        exact nomatch hx.symm.trans hsome
    · refine ⟨fun ⟨sl, hloc, ht⟩ => ?_, False.elim⟩
      have hsome : κ.flying g t C kt hi x = some _ :=
        flying_of_lt hloc ht (Nat.le_refl kt) (by omega) rfl (by omega)
      exact nomatch hx.symm.trans hsome

/-! ### Reading a tile -/

/-- A word of the stage that is read. -/
theorem frozen_of_locate {kt x : ℕ} {sl : Slot} (hnext : κ.place segs (p + 1) = some (g, kt + 1))
    (hkt : kt < κ.kTiles) (hloc : κ.locate x = some (kt % 4, sl)) :
    (κ.plan segs mem).perm (p + 1) x = .frozen := by
  rw [perm_loop hnext hkt hloc, if_pos ⟨Nat.succ_pos kt, rfl⟩]

/-- The slot of a word of a tile of B, and what belongs there. -/
theorem tileWord_b {s j nb q kt w : ℕ} (hj : j < 2) (hnb : nb < 8) (hq : q < κ.ch) :
    κ.tileWord g kt (.b ((s * 2 + j) * (8 * κ.ch) + nb * κ.ch + q)) w =
      g.packed s ((kt * 2 + j) * κ.tilesN + κ.nBlock0 + s * κ.nbStride + nb) q w := by
  -- the chunk's number within its substep and its matrix
  have hlow : nb * κ.ch + q < 8 * κ.ch :=
    calc nb * κ.ch + q < nb * κ.ch + κ.ch := Nat.add_lt_add_left hq _
      _ = (nb + 1) * κ.ch := (Nat.succ_mul nb κ.ch).symm
      _ ≤ 8 * κ.ch := Nat.mul_le_mul_right _ hnb
  have hmid : j * (8 * κ.ch) + (nb * κ.ch + q) < 2 * 8 * κ.ch :=
    calc j * (8 * κ.ch) + (nb * κ.ch + q) < j * (8 * κ.ch) + 8 * κ.ch :=
          Nat.add_lt_add_left hlow _
      _ = (j + 1) * (8 * κ.ch) := (Nat.succ_mul j _).symm
      _ ≤ 2 * (8 * κ.ch) := Nat.mul_le_mul_right _ hj
      _ = 2 * 8 * κ.ch := (Nat.mul_assoc 2 8 _).symm
  -- the three digits are read back from the number
  have hn : (s * 2 + j) * (8 * κ.ch) + nb * κ.ch + q =
      s * (2 * 8 * κ.ch) + (j * (8 * κ.ch) + (nb * κ.ch + q)) := by
    rw [Nat.add_mul, Nat.mul_assoc s 2, ← Nat.mul_assoc 2 8, Nat.add_assoc, Nat.add_assoc]
  obtain ⟨hs, hr⟩ := mul_add_div_mod (s := s) hmid
  obtain ⟨hjd, -⟩ := mul_add_div_mod (s := j) hlow
  have hnq : j * (8 * κ.ch) + (nb * κ.ch + q) = (j * 8 + nb) * κ.ch + q := by
    rw [Nat.add_mul, Nat.mul_assoc, Nat.add_assoc]
  obtain ⟨hnbd, hqm⟩ := mul_add_div_mod (s := j * 8 + nb) hq
  rw [← hnq] at hnbd hqm
  have hmod : (j * 8 + nb) % 8 = nb := by omega
  rw [tileWord, hn, hs, hr, hjd, hnbd, hqm, hmod]

/-- The words of B that a thread reads. -/
theorem wordsB_locate (kt : ℕ) {s j w : ℕ} (hs : s < κ.ns) (hj : j < 2)
    (hw : w ∈ κ.dqWords (FmTid.lane t)) :
    ∃ sl, κ.locate (4 * κ.bTile (kt % 4) s j (FmTid.warp t) + w) = some (kt % 4, sl) ∧
      κ.tileWord g kt sl ((4 * κ.bTile (kt % 4) s j (FmTid.warp t) + w) % 4) =
        g.packed s ((kt * 2 + j) * κ.tilesN + κ.nBlock0 + s * κ.nbStride + FmTid.warp t)
          (w / 4) (w % 4) := by
  -- the word is one of the warp's block
  have hlt : w < 8 * κ.bits := κ.dqWords_lt _ w hw
  have hq : w / 4 < κ.ch := by
    rw [ch]
    omega
  have hnb : FmTid.warp t < 8 := by
    have := t.isLt
    simp only [FmTid.warp]
    omega
  -- its chunk is one of the stage's
  have hvalid : κ.Valid (.b ((s * 2 + j) * (8 * κ.ch) + FmTid.warp t * κ.ch + w / 4)) := by
    calc (s * 2 + j) * (8 * κ.ch) + FmTid.warp t * κ.ch + w / 4
        < (s * 2 + j) * (8 * κ.ch) + FmTid.warp t * κ.ch + κ.ch := Nat.add_lt_add_left hq _
      _ = (s * 2 + j) * (8 * κ.ch) + (FmTid.warp t + 1) * κ.ch := by
        rw [Nat.add_assoc, Nat.succ_mul (FmTid.warp t) κ.ch]
      _ ≤ (s * 2 + j) * (8 * κ.ch) + 8 * κ.ch :=
        Nat.add_le_add_left (Nat.mul_le_mul_right _ hnb) _
      _ = (s * 2 + j + 1) * (8 * κ.ch) := (Nat.succ_mul _ _).symm
      _ ≤ κ.ns * 2 * (8 * κ.ch) := Nat.mul_le_mul_right _ (by omega)
      _ = κ.bChunks := by rw [bChunks, Nat.mul_assoc (κ.ns * 2)]
  have hword : κ.word (kt % 4) (.b ((s * 2 + j) * (8 * κ.ch) + FmTid.warp t * κ.ch + w / 4))
      (w % 4) = 4 * κ.bTile (kt % 4) s j (FmTid.warp t) + w := by
    rw [word, bTile]
    omega
  have hmod := Nat.mod_lt w (show 0 < 4 by decide)
  have hmod' : (4 * κ.bTile (kt % 4) s j (FmTid.warp t) + w) % 4 = w % 4 := by omega
  refine ⟨.b ((s * 2 + j) * (8 * κ.ch) + FmTid.warp t * κ.ch + w / 4), ?_, ?_⟩
  · rw [← hword]
    exact locate_word (Nat.mod_lt kt (by decide)) hvalid hmod
  · rw [hmod']
    exact tileWord_b hj hnb hq

/-- The words of A that a thread reads. -/
theorem wordsA_locate (kt : ℕ) {i row chunk w : ℕ} (hi : i < κ.na) (hrow : row < κ.tileM)
    (hchunk : chunk < 4) (hw : w < 4) :
    ∃ sl, κ.locate (4 * κ.aChunk (kt % 4) i row chunk + w) = some (kt % 4, sl) ∧
      κ.tileWord g kt sl ((4 * κ.aChunk (kt % 4) i row chunk + w) % 4) =
        κ.a i (κ.srcRow g row) (kt * 4 + chunk) w := by
  -- the chunk's number within its matrix
  have hlow : row * 4 + chunk < κ.tileM * 4 := by omega
  have hvalid : κ.Valid (.a (i * (κ.tileM * 4) + row * 4 + chunk)) := by
    calc i * (κ.tileM * 4) + row * 4 + chunk
        = i * (κ.tileM * 4) + (row * 4 + chunk) := Nat.add_assoc _ _ _
      _ < i * (κ.tileM * 4) + κ.tileM * 4 := Nat.add_lt_add_left hlow _
      _ = (i + 1) * (κ.tileM * 4) := (Nat.succ_mul i _).symm
      _ ≤ κ.na * (κ.tileM * 4) := Nat.mul_le_mul_right _ hi
      _ = κ.aChunks := (Nat.mul_assoc _ _ _).symm
  -- row and chunk are read back from the number
  obtain ⟨hdiv, hmod⟩ := mul_add_div_mod (s := i) hlow
  have hw' : (4 * κ.aChunk (kt % 4) i row chunk + w) % 4 = w := by omega
  refine ⟨.a (i * (κ.tileM * 4) + row * 4 + chunk), ?_, ?_⟩
  · rw [← word_a hrow hchunk]
    exact locate_word (Nat.mod_lt kt (by decide)) hvalid hw
  · rw [hw', tileWord, Nat.add_assoc, hdiv, hmod]
    have h₁ : (row * 4 + chunk) / 4 = row := by omega
    have h₂ : (row * 4 + chunk) % 4 = chunk := by omega
    rw [h₁, h₂]

/-- **What a sub-step reads**: the words of K tile `kt`. -/
theorem subStep_ok {kt j i : ℕ} {acc : List (FmMma V)} {k : List (FmMma V) → FmProg κ.toFmConfig V}
    (hplace : κ.place segs p = some (g, kt)) (hnext : κ.place segs (p + 1) = some (g, kt + 1))
    (hkt : kt < κ.kTiles) (hj : j < 2)
    (hk : (κ.plan segs mem).Ok t
      (k (acc ++ (List.range κ.mb).flatMap fun mb =>
        κ.mmas mb (κ.fragsA g t kt j mb) (κ.fragsB g t kt j))) (p + 1) i σ) :
    (κ.plan segs mem).Ok t (κ.subStep g t kt j acc k) (p + 1) i σ := by
  have hval : ∀ x sl, κ.locate x = some (kt % 4, sl) →
      (κ.plan segs mem).val (p + 1) x = κ.tileWord g kt sl (x % 4) :=
    fun x sl hloc => val_tile hplace hkt hloc
  -- B
  have hB : (κ.wordsB t (kt % 4) j).map (fun as => as.map ((κ.plan segs mem).val (p + 1))) =
      κ.fragsB g t kt j := by
    rw [wordsB, List.map_map, fragsB]
    refine List.map_congr_left fun s hs => ?_
    rw [Function.comp_apply, List.map_map]
    refine List.map_congr_left fun w hw => ?_
    obtain ⟨sl, hloc, htile⟩ := wordsB_locate (g := g) kt (List.mem_range.mp hs) hj hw
    exact (hval _ sl hloc).trans htile
  rw [subStep]
  refine Ok.gathers_frozen (fun as has x hx => ?_) ?_
  · obtain ⟨s, hs, rfl⟩ := List.mem_map.mp has
    obtain ⟨w, hw, rfl⟩ := List.mem_map.mp hx
    obtain ⟨sl, hloc, -⟩ := wordsB_locate (g := g) kt (List.mem_range.mp hs) hj hw
    exact frozen_of_locate hnext hkt hloc
  rw [hB]
  refine Ok.note ⟨hnext, rfl⟩ (Ok.fold (f := fun acc mb => acc ++
    κ.mmas mb (κ.fragsA g t kt j mb) (κ.fragsB g t kt j)) (fun mb hmb acc k hk => ?_) ?_)
  swap
  · rwa [foldl_append_flatMap]
  -- A
  have hmb := List.mem_range.mp hmb
  -- the row and the chunk that a lane reads are within the tile
  have hrow : mb * 16 + aRow (FmTid.lane t) < κ.tileM := by
    have h₁ : FmTid.lane t &&& 7 ≤ 7 := Nat.and_le_right
    have h₂ : (FmTid.lane t >>> 3) &&& 1 ≤ 1 := Nat.and_le_right
    simp only [aRow, tileM]
    omega
  have hchunk : j * 2 + (FmTid.lane t >>> 4) < 4 := by
    have hlane : FmTid.lane t < 32 := Nat.mod_lt _ (by decide)
    rw [Nat.shiftRight_eq_div_pow]
    omega
  have hA : (κ.wordsA t (kt % 4) j mb).map (fun as => as.map ((κ.plan segs mem).val (p + 1))) =
      κ.fragsA g t kt j mb := by
    rw [wordsA, List.map_map, fragsA]
    refine List.map_congr_left fun b hb => ?_
    rw [Function.comp_apply, List.map_map]
    refine List.map_congr_left fun w hw => ?_
    obtain ⟨sl, hloc, htile⟩ := wordsA_locate (g := g) kt (List.mem_range.mp hb) hrow
      hchunk (List.mem_range.mp hw)
    exact (hval _ sl hloc).trans htile
  refine Ok.gathers_frozen (fun as has x hx => ?_) ?_
  · obtain ⟨b, hb, rfl⟩ := List.mem_map.mp has
    obtain ⟨w, hw, rfl⟩ := List.mem_map.mp hx
    obtain ⟨sl, hloc, -⟩ := wordsA_locate (g := g) kt (List.mem_range.mp hb) hrow hchunk
      (List.mem_range.mp hw)
    exact frozen_of_locate hnext hkt hloc
  rw [hA]
  exact Ok.note ⟨hnext, rfl⟩ hk

/-! ### The loop -/

/-- **An iteration** adds the products of its K tile, and has issued the copies of the tile three
further on. -/
theorem iteration_ok {kt C : ℕ} {acc : List (FmMma V)} {k : List (FmMma V) → FmProg κ.toFmConfig V}
    (hplace : κ.place segs p = some (g, kt)) (hnext : κ.place segs (p + 1) = some (g, kt + 1))
    (hkt : kt < κ.kTiles)
    (hk : (κ.plan segs mem).Ok t (k (acc ++ κ.products g t kt)) (p + 1) 0
      (Standing.fresh (κ.flying g t C (kt + 1) (min (kt + 1 + 3) κ.kTiles))
        (C + (kt + 1 + 3)))) :
    (κ.plan segs mem).Ok t (κ.iteration g t kt acc k) p 0
      (Standing.fresh (κ.flying g t C kt (min (kt + 3) κ.kTiles)) (C + (kt + 3))) := by
  refine wait_sync_ok hplace hnext hkt ?_
  refine loadTile_ok hnext hkt (by omega) (by omega) (by omega) rfl rfl ?_
  refine Ok.fold (f := fun acc j => acc ++ (List.range κ.mb).flatMap fun mb =>
    κ.mmas mb (κ.fragsA g t kt j mb) (κ.fragsB g t kt j)) (fun j hj acc k hk => ?_) ?_
  · exact subStep_ok hplace hnext hkt (List.mem_range.mp hj) hk
  · rw [foldl_append_flatMap]
    exact hk

/-- **The iterations** from `kt` on. -/
theorem iterations_ok {base C : ℕ} (hplace : ∀ o ≤ κ.kTiles, κ.place segs (base + o) = some (g, o))
    {k : List (FmMma V) → FmProg κ.toFmConfig V}
    (hk : (κ.plan segs mem).Ok t (k (κ.accumulated g t)) (base + κ.kTiles) 0
      (Standing.fresh (κ.flying g t C κ.kTiles κ.kTiles) (C + (κ.kTiles + 3))))
    {m kt : ℕ} (hm : kt + m = κ.kTiles) :
    (κ.plan segs mem).Ok t
      (.fold (κ.iteration g t) (List.range' kt m) ((List.range kt).flatMap (κ.products g t)) k)
      (base + kt) 0
      (Standing.fresh (κ.flying g t C kt (min (kt + 3) κ.kTiles)) (C + (kt + 3))) := by
  induction m generalizing kt with
  | zero =>
    obtain rfl : kt = κ.kTiles := hm
    rw [Nat.min_eq_right (Nat.le_add_right _ 3)]
    exact hk
  | succ m ih =>
    have hgo := ih (show kt + 1 + m = κ.kTiles by omega)
    rw [List.range_succ, List.flatMap_append, List.flatMap_singleton] at hgo
    rw [List.range'_succ, Prog.fold]
    exact iteration_ok (hplace kt (by omega)) (hplace (kt + 1) (by omega)) (by omega) hgo

/-- **The main loop**: at its end every K tile is in the products once, and nothing is in
flight. -/
theorem mainloop_ok {base C : ℕ}
    (hplace : ∀ o ≤ κ.kTiles + 1, κ.place segs (base + o) = some (g, o))
    {k : List (FmMma V) → FmProg κ.toFmConfig V}
    (hk : (κ.plan segs mem).Ok t (k (κ.accumulated g t)) (base + (κ.kTiles + 1)) 0
      (Standing.fresh (fun _ => none) (C + (κ.kTiles + 3)))) :
    (κ.plan segs mem).Ok t (κ.mainloop g t k) base 0 (Standing.fresh (fun _ => none) C) := by
  -- nothing is in flight before the first tile and after the last
  have hfree : κ.flying g t C 0 (min 0 κ.kTiles) = fun _ => none :=
    funext fun x => flying_none (Nat.min_le_left _ _) x
  have hend : κ.flying g t C κ.kTiles κ.kTiles = fun _ => none :=
    funext fun x => flying_none (Nat.le_refl _) x
  have hlast := hplace κ.kTiles (by omega)
  have hafter := hplace (κ.kTiles + 1) (Nat.le_refl _)
  rw [mainloop, ← hfree, show List.range 3 = [0, 1, 2] from rfl]
  -- the prologue: three tiles, or as many as there are
  refine loadTile_ok (o := 0) (hplace 0 (by omega)) (by omega) (Nat.le_refl 0) (by omega) (by omega)
    rfl rfl ?_
  refine loadTile_ok (o := 0) (hplace 0 (by omega)) (by omega) (Nat.zero_le 1) (by omega) (by omega)
    rfl rfl ?_
  refine loadTile_ok (o := 0) (hplace 0 (by omega)) (by omega) (Nat.zero_le 2) (by omega) (by omega)
    rfl rfl ?_
  -- one round for each tile
  rw [List.range_eq_range']
  refine iterations_ok (fun o ho => hplace o (by omega)) ?_ (Nat.zero_add κ.kTiles)
  -- the last wait has nothing to wait for
  rw [hend]
  refine Ok.wait (fun _ _ _ h _ => nomatch h) (fun _ _ _ h _ => nomatch h)
    (fun _ _ => ⟨rfl, Iff.rfl⟩) ?_
  refine Ok.sync (place_lt hlast) rfl ⟨fun x _ _ => ?_, fun x hx => absurd rfl hx,
    fun x hx => absurd hx not_acc_at, fun _ _ _ h => nomatch h⟩ ?_
  · exact .inr (val_rest hlast (Nat.le_refl _) fun sl hlt => absurd hlt (Nat.lt_irrefl _)).symm
  · rw [Nat.add_assoc]
    exact Ok.note ⟨hafter, rfl⟩ hk

end FmKernel

end Dsv41Overlay.Experts
