import Dsv41Overlay.Experts.FatNotes

/-!
# The software pipeline of the fat kernels

The epilogue writes the accumulators of a block of rows over the stages, between two barriers,
and reads them back between the next two (`epilogue_ok`). A block of threads over any segments
then keeps to its plan, and `fat_pipeline` reads off what that means: no stage is read before it
has landed or overwritten before it was read, every K tile is accumulated once, and no copy is
in flight where the memory is used again.
-/

namespace Dsv41Overlay.Experts

open Cta Cta.Plan FmConfig

universe u

variable {V : Type u}

namespace FmKernel

variable {κ : FmKernel V} {g : FmSegment κ.toFmConfig V} {t : FmTid}
  {segs : List (FmSegment κ.toFmConfig V)} {mem : ℕ → V} {p : ℕ}

/-! ### The epilogue -/

/-- The row and the rest of a float of `sh_c`. -/
theorem row_digits {ns r s x : ℕ} (hs : s < ns) (hx : x < 128) :
    (r * (ns * 128) + s * 128 + x) / (ns * 128) = r ∧
      (r * (ns * 128) + s * 128 + x) % (ns * 128) = s * 128 + x := by
  rw [Nat.add_assoc]
  exact mul_add_div_mod (by omega)

/-- **The floats that a thread stages** are those whose writer it is. -/
theorem mem_stagedWords {acc : List (FmMma V)} {mb x : ℕ} {v : V} :
    (x, v) ∈ κ.stagedWords t acc mb ↔
      x < κ.epiWords ∧ κ.writer x = t ∧
        v = κ.frag acc (x % (κ.ns * 128) / 128) mb (x % (κ.ns * 128) % 128 % 16 / 8)
          (2 * (x / (κ.ns * 128) / 8) + x % (κ.ns * 128) % 128 % 16 % 2) := by
  have ht := t.isLt
  -- lane and warp as quotients
  have hlane : FmTid.lane t >>> 2 = t.val % 32 / 4 := Nat.shiftRight_eq_div_pow _ 2
  have hcol : FmTid.lane t &&& 3 = t.val % 32 % 4 := Nat.and_two_pow_sub_one_eq_mod _ 2
  have hwarp : FmTid.warp t = t.val / 32 := rfl
  simp only [stagedWords, List.mem_flatMap, List.mem_map, List.mem_range, hlane, hcol, hwarp]
  -- the place a value goes to
  constructor
  · rintro ⟨s, hs, h, hh, ⟨off, n, b⟩, he, heq⟩
    obtain ⟨rfl, rfl⟩ := Prod.mk.inj heq
    have hoff : n < 2 ∧ b < 2 ∧ off = 8 * n + b := by
      simp only [List.mem_cons, Prod.mk.injEq, List.not_mem_nil, or_false] at he
      omega
    have hx : t.val % 32 % 4 * 2 + t.val / 32 * 16 + off < 128 := by omega
    -- its row and its column are read back from the place
    obtain ⟨hdiv, hmod⟩ := row_digits (r := t.val % 32 / 4 + 8 * h) hs hx
    rw [← Nat.add_assoc] at hdiv hmod
    dsimp only
    rw [writer, fmTid_eq_iff, hdiv, hmod, epiWords]
    have hs' : (s * 128 + (t.val % 32 % 4 * 2 + t.val / 32 * 16 + off)) / 128 = s := by omega
    have hn : (s * 128 + (t.val % 32 % 4 * 2 + t.val / 32 * 16 + off)) % 128 % 16 / 8 = n := by
      omega
    have hb : (s * 128 + (t.val % 32 % 4 * 2 + t.val / 32 * 16 + off)) % 128 % 16 % 2 = b := by
      omega
    have hh' : (t.val % 32 / 4 + 8 * h) / 8 = h := by omega
    -- the place is within the staging words
    refine ⟨?_, by omega, by rw [hs', hn, hb, hh']⟩
    calc (t.val % 32 / 4 + 8 * h) * (κ.ns * 128) + s * 128 +
          (t.val % 32 % 4 * 2 + t.val / 32 * 16) + off
        < (t.val % 32 / 4 + 8 * h) * (κ.ns * 128) + κ.ns * 128 := by omega
      _ = (t.val % 32 / 4 + 8 * h + 1) * (κ.ns * 128) := (Nat.succ_mul _ _).symm
      _ ≤ 16 * (κ.ns * 128) := Nat.mul_le_mul_right _ (by omega)
  -- the value for a place: the thread, the block and the offset that it has
  · rintro ⟨hx, hw, rfl⟩
    rw [epiWords] at hx
    have hpos : 0 < κ.ns * 128 := by
      by_contra h0
      rw [Nat.eq_zero_of_not_pos h0, Nat.mul_zero] at hx
      exact Nat.not_lt_zero _ hx
    -- the row is below sixteen
    have hr : x / (κ.ns * 128) < 16 := (Nat.div_lt_iff_lt_mul hpos).mpr hx
    have hy := Nat.mod_lt x hpos
    have hdm := Nat.div_add_mod' x (κ.ns * 128)
    rw [writer, fmTid_eq_iff] at hw
    generalize hr' : x / (κ.ns * 128) = r at hr hw hdm ⊢
    generalize hy' : x % (κ.ns * 128) = y at hy hw hdm ⊢
    refine ⟨y / 128, by omega, r / 8, by omega,
      (8 * (y % 128 % 16 / 8) + y % 128 % 16 % 2, y % 128 % 16 / 8, y % 128 % 16 % 2), ?_, ?_⟩
    · have h₁ : y % 128 % 16 / 8 < 2 := by omega
      have h₂ : y % 128 % 16 % 2 < 2 := by omega
      generalize y % 128 % 16 / 8 = n at h₁ ⊢
      generalize y % 128 % 16 % 2 = b at h₂ ⊢
      simp only [List.mem_cons, Prod.mk.injEq, List.not_mem_nil, or_false]
      omega
    · refine Prod.ext ?_ rfl
      dsimp only
      have hrow : t.val % 32 / 4 + 8 * (r / 8) = r := by omega
      rw [hrow]
      omega

theorem perm_epilogue {o mb x : ℕ} (hplace : κ.place segs p = some (g, o))
    (ho : o = κ.kTiles + 1 + 2 * mb) :
    (κ.plan segs mem).perm p x = if x < κ.epiWords then .owned (κ.writer x) else .frozen := by
  subst ho
  rw [perm_eq hplace, permAt, if_neg (by omega)]
  by_cases hx : x < κ.epiWords
  · rw [if_pos ⟨by omega, hx⟩, if_pos hx]
  · rw [if_neg fun h => hx h.2, if_neg hx]

/-- In the phase behind it, all is frozen. -/
theorem perm_reading {o mb x : ℕ} (hplace : κ.place segs p = some (g, o))
    (ho : o = κ.kTiles + 1 + 2 * mb + 1) : (κ.plan segs mem).perm p x = .frozen := by
  subst ho
  rw [perm_eq hplace, permAt, if_neg (by omega), if_neg (by omega)]

theorem val_staged {o mb x : ℕ} (hplace : κ.place segs p = some (g, o))
    (ho : o = κ.kTiles + 1 + 2 * mb) (hx : x < κ.epiWords) :
    (κ.plan segs mem).val (p + 1) x = κ.staged g mb x := by
  subst ho
  have hmb : (κ.kTiles + 1 + 2 * mb - (κ.kTiles + 1)) / 2 = mb := by omega
  rw [val_succ hplace, written, if_neg (by omega), if_pos ⟨by omega, by omega, hx⟩,
    Option.getD_some, hmb]

/-- **The epilogue** from a block of rows on. -/
theorem epilogue_ok {base C : ℕ}
    (hplace : ∀ o < κ.phasesOf g, κ.place segs (base + o) = some (g, o)) {k : FmProg κ.toFmConfig V}
    (hk : (κ.plan segs mem).Ok t k (base + κ.phasesOf g) 0 (Standing.fresh (fun _ => none) C))
    {m mb : ℕ} (hm : mb + m = κ.mb) (hmb : mb ≤ κ.blocks g) :
    (κ.plan segs mem).Ok t (κ.epilogue g t (κ.accumulated g t) (List.range' mb m) k)
      (base + (κ.kTiles + 1 + 2 * mb)) 0 (Standing.fresh (fun _ => none) C) := by
  have hrows := g.rows_le
  rw [tileM] at hrows
  -- after the last block the epilogue is over
  have hend : g.rows ≤ mb * 16 → (κ.plan segs mem).Ok t k (base + (κ.kTiles + 1 + 2 * mb)) 0
      (Standing.fresh (fun _ => none) C) := by
    intro hle
    have hlast : mb = κ.blocks g := by
      rw [blocks] at hmb ⊢
      omega
    subst hlast
    exact hk
  induction m generalizing mb with
  | zero => exact hend (by omega)
  | succ m ih =>
    rw [List.range'_succ, epilogue]
    by_cases hle : g.rows ≤ mb * 16
    · rw [if_pos hle]
      exact hend hle
    -- this block is staged
    have hlt : mb < κ.blocks g := by
      rw [blocks]
      omega
    have ho := hplace (κ.kTiles + 1 + 2 * mb) (by rw [phasesOf]; omega)
    have ho' := hplace (κ.kTiles + 1 + 2 * mb + 1) (by rw [phasesOf]; omega)
    rw [if_neg hle]
    refine Ok.note ho (Ok.stores (fun xv hxv => ?_) ?_)
    -- the thread stores its own words, with their values
    · obtain ⟨hx, hw, hv⟩ := mem_stagedWords.mp hxv
      refine ⟨?_, rfl, ?_⟩
      · rw [perm_epilogue ho rfl, if_pos hx, hw]
      · rw [val_staged ho rfl hx, staged, hw, hv]
    refine Ok.sync (place_lt ho) rfl ⟨fun x hperm _ => ?_, fun x hx => absurd rfl hx,
      fun x hx => absurd hx not_acc_at, fun _ _ _ h => by cases h⟩ ?_
    · -- the thread has written all that is its own
      rw [perm_epilogue ho rfl] at hperm
      split at hperm
      · rename_i hx
        refine .inl (.inr (List.mem_map.mpr ⟨(x, _), mem_stagedWords.mpr ⟨hx, ?_, rfl⟩, rfl⟩))
        exact Perm.owned.inj hperm
      · cases hperm
    rw [Nat.add_assoc base]
    -- then every thread reads what is staged
    refine Ok.each (I := fun _ σ => σ = Standing.fresh (fun _ => none) C)
      (fun rr _ k σ hσ hk => ?_) (fun σ hσ => ?_) rfl
    · dsimp only
      split
      · exact Ok.loads_frozen (fun x _ => perm_reading ho' rfl) (hk σ hσ)
      · exact hk σ hσ
    subst hσ
    refine Ok.sync (place_lt ho') rfl ⟨fun x hperm _ => ?_, fun x hx => absurd rfl hx,
      fun x hx => absurd hx not_acc_at, fun _ _ _ h => by cases h⟩ ?_
    -- nothing is owned while it is read
    · rw [perm_reading ho' rfl] at hperm
      cases hperm
    have hnext : κ.kTiles + 1 + 2 * mb + 1 + 1 = κ.kTiles + 1 + 2 * (mb + 1) := by omega
    rw [Nat.add_assoc base, hnext]
    -- the next block
    refine ih (by omega) hlt fun hle' => ?_
    have hlast : mb + 1 = κ.blocks g := by
      rw [blocks] at hlt ⊢
      omega
    rw [hlast]
    exact hk

/-! ### The block -/

/-- **A block keeps to its plan**, segment after segment. -/
theorem block_ok {base C : ℕ} {gs : List (FmSegment κ.toFmConfig V)}
    (hplace : ∀ q, κ.place segs (base + q) = κ.place gs q)
    (hend : base + (gs.map κ.phasesOf).sum = (κ.plan segs mem).phases) :
    (κ.plan segs mem).Ok t (κ.block t gs) base 0 (Standing.fresh (fun _ => none) C) := by
  -- the segments one after the other
  induction gs generalizing base C with
  | nil =>
    have hout : κ.place segs base = none := hplace 0
    refine Ok.done hend rfl ⟨fun x hperm _ => ?_, fun x hx => absurd rfl hx,
      fun x hx => absurd hx not_acc_at, fun _ _ _ h => by cases h⟩ fun _ => rfl
    simp only [plan, hout] at hperm
    cases hperm
  | cons g gs ih =>
    -- the phases of the first segment
    have hg : ∀ o < κ.phasesOf g, κ.place segs (base + o) = some (g, o) :=
      fun o ho => (hplace o).trans (place_cons_lt ho)
    have hblocks : 1 ≤ κ.blocks g := by
      have := g.rows_pos
      rw [blocks]
      omega
    -- the rest starts where they end
    have hrest : (κ.plan segs mem).Ok t (κ.block t gs) (base + κ.phasesOf g) 0
        (Standing.fresh (fun _ => none) (C + (κ.kTiles + 3))) := by
      refine ih (fun q => ?_) ?_
      · rw [Nat.add_assoc, hplace, place_cons_add]
      · rw [← hend, List.map_cons, List.sum_cons, Nat.add_assoc]
    -- the main loop, then the epilogue
    rw [block]
    refine Ok.note ⟨hg 0 (by rw [phasesOf]; omega), fun _ h => h rfl⟩ ?_
    refine mainloop_ok (fun o ho => hg o (by rw [phasesOf]; omega)) ?_
    rw [List.range_eq_range']
    exact epilogue_ok hg hrest (by omega) (Nat.zero_le _)

variable (κ) in
theorem verifies (gs : List (FmSegment κ.toFmConfig V)) (mem : ℕ → V) :
    (κ.plan gs mem).Verifies fun t => κ.block t gs :=
  verifies_of_ok fun t => block_ok (fun q => by rw [Nat.zero_add]) (Nat.zero_add _)

theorem reachable_plan {gs : List (FmSegment κ.toFmConfig V)}
    {s : State FmTid ℕ V (FmNote κ.toFmConfig V)}
    (hs : (runs FmTid.warp mem fun t => κ.block t gs).Reachable s) :
    (runs (κ.plan gs mem).warp ((κ.plan gs mem).val 0) fun t => κ.block t gs).Reachable s := hs

variable (κ) in
/-- What is true when thread `t` is at a note. -/
def AtNote (s : State FmTid ℕ V (FmNote κ.toFmConfig V)) (t : FmTid) :
    FmNote κ.toFmConfig V → Prop
  /- When a segment begins, the thread has no copy in flight, and other threads only have some of
  K tiles of this segment. -/
  | .start g => (∀ x v, ¬ s.Outstanding t x v) ∧
      ∀ t' x v, s.Outstanding t' x v → ∃ q < κ.kTiles, ∃ sl, κ.locate x = some (q % 4, sl) ∧
        v = κ.tileWord g q sl (x % 4)
  /- What iteration `kt` has read is K tile `kt`. -/
  | .fragsB g kt j fb => fb = κ.fragsB g t kt j
  | .fragsA g kt j mb fa => fa = κ.fragsA g t kt j mb
  /- Every K tile is in the products once. -/
  | .accumulated g acc =>
    acc = (List.range κ.kTiles).flatMap (κ.products g t) ∧ ∀ t' x v, ¬ s.Outstanding t' x v
  | .stageAcc _ _ => ∀ t' x v, ¬ s.Outstanding t' x v

/-- **The software pipeline**, for every number of K tiles, all segments, and every order in which
the threads run and their copies land: two threads never use a word at the same time if one of
them changes it, and none uses a word to which a copy is in flight; every run comes to an end; at
its notes a thread has read the K tile of its iteration, has added up each tile once, and finds no
copy in flight where the memory is used again; and a thread that has come to its end has passed
every note of its segments, each K tile and each sum once and in order. -/
theorem fat_pipeline (κ : FmKernel V) (seg : ℕ → FmSegment κ.toFmConfig V)
    (numSegs y grid : ℕ) (mem : ℕ → V) {s : State FmTid ℕ V (FmNote κ.toFmConfig V)}
    (hs : (runs FmTid.warp mem fun t => κ.kernel t seg numSegs y grid).Reachable s) :
    ¬ s.Race ∧ Acc (fun s₂ s₁ => Step FmTid.warp s₁ s₂) s ∧
      (s.Finished ∨ ∃ s', Step FmTid.warp s s') ∧
      (∀ t note k, (s.thread t).prog = .note note k → κ.AtNote s t note) ∧
      ∀ t, (s.thread t).passed <+: κ.notes t ((stride y grid numSegs).map seg) ∧
        ((s.thread t).prog = .done →
          (s.thread t).passed = κ.notes t ((stride y grid numSegs).map seg)) := by
  -- every reachable state follows the plan
  have hplan := reachable_plan hs
  have hverifies := verifies κ ((stride y grid numSegs).map seg) mem
  refine ⟨hverifies.not_race hplan, hverifies.accessible hplan, ?_, fun t note k hprog => ?_,
    fun t => ?_⟩
  -- a state that is not finished has a step
  · by_cases hfinished : s.Finished
    · exact .inl hfinished
    · exact .inr (hverifies.exists_step hplan fun hnot => hfinished hnot.1)
  swap
  · -- what the notes carry is known from the plan, their order from the program
    have hpassed : (s.thread t).passed.map (κ.planned t) = (s.thread t).passed := by
      refine (List.map_congr_left fun x hx => ?_).trans (List.map_id _)
      obtain ⟨p, D, hnoted⟩ := hverifies.noted_of_passed hplan hx
      exact eq_planned_of_noted hnoted
    have hnotes : (κ.kernel t seg numSegs y grid).Notes (κ.planned t)
        (κ.notes t ((stride y grid numSegs).map seg)) := block_notes _
    constructor
    · obtain ⟨rest, -, heq⟩ := notes_of_reachable hnotes hs
      exact ⟨rest, hpassed ▸ heq⟩
    · intro hdone
      exact hpassed.symm.trans (map_passed_of_finished hnotes hs hdone)
  obtain ⟨p, D, hnoted, hown, hflight⟩ := hverifies.noted hplan hprog
  -- in the epilogue no copy may be in flight
  have hcalm : ∀ g o, κ.place ((stride y grid numSegs).map seg) p = some (g, o) → κ.kTiles < o →
      ∀ t' x v, ¬ s.Outstanding t' x v := by
    intro g o hplace hlt t' x v hout
    obtain ⟨g', o', hplace', hle, -⟩ := hflight t' x v hout
    obtain ⟨-, rfl⟩ := Prod.mk.inj (Option.some.inj (hplace.symm.trans hplace'))
    omega
  cases note with
  | start g =>
    obtain ⟨hplace, hfree⟩ := hnoted
    refine ⟨fun x v hout => hfree x (hown x v hout), fun t' x v hout => ?_⟩
    obtain ⟨g', o', hplace', -, q, hq, sl, hloc, -, hv⟩ := hflight t' x v hout
    obtain ⟨rfl, -⟩ := Prod.mk.inj (Option.some.inj (hplace.symm.trans hplace'))
    exact ⟨q, hq, sl, hloc, hv⟩
  | fragsB g kt j fb => exact hnoted.2
  | fragsA g kt j mb fa => exact hnoted.2
  | accumulated g acc => exact ⟨hnoted.2, hcalm g _ hnoted.1 (Nat.lt_succ_self _)⟩
  | stageAcc g mb => exact hcalm g _ hnoted (by omega)

/-- A gate/up block of 4-bit weights: two K tiles, two segments of 5 and of 64 rows. -/
def sample : FmKernel ℕ where
  toFmConfig := fmGateupConfig 4
  kTiles := 2
  tilesN := 8
  nBlock0 := 0
  a i row chunk w := ((i * 100 + row) * 8 + chunk) * 4 + w
  dqWords lane := [(lane + 31) % 32, lane % 32]
  dqWords_lt lane w hw := by
    simp only [List.mem_cons, List.not_mem_nil, or_false] at hw
    simp only [fmGateupConfig]
    omega
  frag acc s mb n i := acc.length + s + mb + n + i

/-- Its segments. -/
def sampleSegment (n : ℕ) : FmSegment sample.toFmConfig ℕ where
  row0 := n * 64
  rows := if n = 0 then 5 else 64
  packed s tile q w := ((s * 100 + tile) * 8 + q) * 4 + w
  rows_pos := by split <;> decide
  rows_le := by split <;> decide

/-- Its runs come to an end, and not into a race; each thread has then added up both K tiles of both
segments. -/
theorem fat_pipeline_sample :
    ∃ s, (runs FmTid.warp (fun _ => 0) fun t => sample.kernel t sampleSegment 2 0 1).Reachable s ∧
      s.Finished ∧ ¬ s.Race ∧
      ∀ t, (s.thread t).passed = sample.notes t [sampleSegment 0, sampleSegment 1] := by
  obtain ⟨s, hs, hfinished⟩ :=
    (verifies sample ((stride 0 1 2).map sampleSegment) fun _ => 0).exists_finished
  obtain ⟨hrace, -, -, -, hpassed⟩ := fat_pipeline sample sampleSegment 2 0 1 (fun _ => 0) hs
  exact ⟨s, hs, hfinished, hrace, fun t => (hpassed t).2 (hfinished t)⟩

end FmKernel

end Dsv41Overlay.Experts
