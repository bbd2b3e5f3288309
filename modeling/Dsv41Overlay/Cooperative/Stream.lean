import Dsv41Overlay.Cooperative.Plan

/-!
# Calls on a stream

The stream runs the kernels of a call one after another, and the calls one after
another, all on one set of buffers and counters (`stream`). Inside a kernel the blocks
take turns in any order.

`Stage` says what holds before each kernel: the counters it uses are zero, its inputs
have their values, and the output chunks written so far in this call were written once,
with theirs. `stage_reachable` is the induction over the calls;
`cooperative_completion` reads the protocol off it.
-/

namespace Dsv41Overlay.Cooperative

open Completion

variable {V : Type*}

/-! ### The stream -/

inductive Kernel
  | rot
  | a
  | b
  deriving DecidableEq, Repr

/-- The buffers between two kernels, the call in progress with its kernels that are not yet
run, and the stores since it began. -/
structure Stream (V : Type*) where
  cells : Cell → V
  ctr : Counter → ℕ
  runs : RunTable
  call : Option (Call V)
  pending : List Kernel
  log : List (Cell × V)

/-- The programs of a kernel. -/
def programs (C : Call V) (T : RunTable) : Kernel → List (Program V)
  | .rot => rotPrograms C
  | .a => aPrograms C T
  | .b => bPrograms C T

/-- The configurations of a launch. -/
abbrev Config (V : Type*) := Interleave (Memory Cell Counter V) (Block Cell Counter V)

/-- The launch of a kernel in this state of the buffers. -/
abbrev Stream.launch (s : Stream V) (C : Call V) (k : Kernel) :
    System (Config V) (ℕ × Unit) :=
  Completion.launch s.cells s.ctr (programs C s.runs k)

/-- The stream after a kernel that ended in `c`. -/
def Stream.after (s : Stream V) (c : Config V) (T : RunTable) (rest : List Kernel) : Stream V :=
  { s with
    cells := c.shared.cells
    ctr := c.shared.ctr
    runs := T
    pending := rest
    log := s.log ++ c.shared.log }

/-- The kernels that `goal50_coop_launch` enqueues. -/
def Call.kernels (C : Call V) : List Kernel := if 1 < C.rows then [.rot, .a, .b] else [.a, .b]

inductive Label (V : Type*)
  | call (a : Args V)
  | kernel

/-- A call that is rejected launches nothing; one that is accepted starts when the calls
before it have run; a kernel runs to its end in any interleaving of its blocks, and block
`0` of the rotation kernel leaves a run table. -/
inductive StreamStep (s : Stream V) : Label V → Stream V → Prop
  | rejected {a : Args V} (h : goal50CoopLaunch a = none) : StreamStep s (.call a) s
  | accepted {a : Args V} {C : Call V} (hidle : s.pending = [])
      (h : goal50CoopLaunch a = some C) :
      StreamStep s (.call a) { s with call := some C, pending := C.kernels, log := [] }
  | kernel {C : Call V} {k : Kernel} {rest : List Kernel} {c : Config V} {T : RunTable}
      (hcall : s.call = some C) (hpending : s.pending = k :: rest)
      (hrun : (s.launch C k).Reachable c) (hc : Complete c)
      (hruns : (k = .rot ∧ ∃ buf, T = buildRuns C buf s.runs) ∨ (k ≠ .rot ∧ T = s.runs)) :
      StreamStep s .kernel (s.after c T rest)

/-- Calls on one stream over one counter buffer that starts zeroed. -/
def stream (V : Type*) : System (Stream V) (Label V) where
  init s := (∀ k, s.ctr k = 0) ∧ s.call = none ∧ s.pending = [] ∧ s.log = []
  step := StreamStep

/-! ### Output chunks -/

/-- How often the call has stored a cell. -/
def Stream.count (s : Stream V) (c : Cell) : ℕ := s.log.countP fun e => e.1 = c

/-- The call wrote the output chunk once, with its value. -/
structure Once (C : Call V) (s : Stream V) (row chunk : ℕ) : Prop where
  count : s.count (.out row chunk) = 1
  log : ∀ e ∈ s.log, e.1 = .out row chunk → e.2 = rowValue C row chunk
  cell : s.cells (.out row chunk) = rowValue C row chunk

/-- The rows that satisfy `P` are written, and no others. -/
structure Outputs (C : Call V) (s : Stream V) (P : ℕ → Prop) : Prop where
  once : ∀ row < C.rows, P row → ∀ chunk < 40, Once C s row chunk
  never : ∀ row < C.rows, ¬ P row → ∀ chunk < 40, s.count (.out row chunk) = 0

variable {C : Call V} {s : Stream V} {k : Kernel} {c : Config V}

theorem count_after (s : Stream V) (c : Config V) (T : RunTable) (rest : List Kernel) (d : Cell) :
    (s.after c T rest).count d = s.count d + c.shared.count d := List.countP_append

/-- **A kernel writes rows**: those of `Q` that were not written before, and it leaves the
others alone. -/
theorem Outputs.after {P Q : ℕ → Prop} (h : Outputs C s P)
    (hs : Sound s.cells (programs C s.runs k) target (value C))
    (h₀ : ∀ i, 0 < arrivals (programs C s.runs k) i → s.ctr i = 0)
    (hrun : (s.launch C k).Reachable c) (hc : Complete c) (hPQ : ∀ row, P row → Q row)
    (hw : ∀ row < C.rows, ∀ chunk < 40,
      Written (programs C s.runs k) target (.out row chunk) ↔ ¬ P row ∧ Q row)
    (T : RunTable) (rest : List Kernel) : Outputs C (s.after c T rest) Q := by
  have hsolved := solved_reachable hs h₀ hrun
  constructor
  · intro row hr hQ chunk hch
    -- the row was done: this launch does not touch it
    by_cases hP : P row
    · have hold := h.once row hr hP chunk hch
      have hnot : ¬ Written (programs C s.runs k) target (.out row chunk) := fun hwr =>
        ((hw row hr chunk hch).mp hwr).1 hP
      have hnone := count_of_not_written hs h₀ hrun hc hnot
      refine ⟨?_, fun e he hcell => ?_, (hsolved.unwritten _ hnot).trans hold.cell⟩
      · rw [count_after, hold.count, hnone]
      · rcases List.mem_append.mp he with he | he
        · exact hold.log e he hcell
        · exact absurd (decide_eq_true hcell) (List.countP_eq_zero.mp hnone e he)
    -- the row is done by this launch: nothing was stored before
    · have hnew := (hw row hr chunk hch).mpr ⟨hP, hQ⟩
      have hone := count_of_written hs h₀ hrun hc hnew
      have hnone := h.never row hr hP chunk hch
      refine ⟨?_, fun e he hcell => ?_, ?_⟩
      · rw [count_after, hone, hnone]
      · rcases List.mem_append.mp he with he | he
        · exact absurd (decide_eq_true hcell) (List.countP_eq_zero.mp hnone e he)
        · rw [hsolved.log e he, hcell]
          rfl
      · exact hsolved.stored _ (by omega)
  -- the row is not done yet
  · intro row hr hQ chunk hch
    have hP : ¬ P row := fun hP => hQ (hPQ row hP)
    have hnot : ¬ Written (programs C s.runs k) target (.out row chunk) := fun hwr =>
      hQ ((hw row hr chunk hch).mp hwr).2
    rw [count_after, h.never row hr hP chunk hch, count_of_not_written hs h₀ hrun hc hnot]

/-- The rotation kernel writes the rows without an active slot. -/
theorem written_out_rot {row chunk : ℕ} (hr : row < C.rows) (hch : chunk < 40) :
    Written (rotPrograms C) target (.out row chunk) ↔ tokenActiveSlots C row = 0 := by
  constructor
  -- a store of the kernel, or an arrival at the chunk
  · rintro (h | ⟨i, hi, -⟩)
    · rw [stores_eq_count, written_rot] at h
      obtain ⟨item, -, hmem⟩ := List.mem_flatMap.mp (List.count_pos_iff.mp h)
      obtain ⟨-, hcell⟩ | ⟨-, -, hempty, hcell⟩ := mem_rotCells hmem
      · cases hcell
      · rw [(Cell.out.inj hcell).1]
        exact hempty
    · rw [arrivals_rot] at hi
      exact absurd hi (Nat.lt_irrefl 0)
  -- the empty token's chunk is one of the rotation kernel's
  · intro hempty
    refine .inl ?_
    rw [stores_eq_count]
    exact List.count_pos_iff.mpr (out_mem_rot hr hch hempty)

/-- Kernel A writes the row of a single-row call without an active slot. -/
theorem written_out_a {T : RunTable} (hT : TableOk C T) {row chunk : ℕ} (hr : row < C.rows)
    (hch : chunk < 40) :
    Written (aPrograms C T) target (.out row chunk) ↔
      ¬ 1 < C.rows ∧ tokenActiveSlots C row = 0 := by
  constructor
  -- of kernel A's stores only those of an idle block are in the output
  · rintro (h | ⟨i, hi, htarget⟩)
    · rw [stores_eq_count] at h
      obtain ⟨_, _, _, hcell⟩ | ⟨_, -, hcell, hcond⟩ := mem_written_a (List.count_pos_iff.mp h)
      · cases hcell
      · rw [(Cell.out.inj hcell).1]
        exact hcond
    · obtain ⟨_, _, _, _, rfl⟩ := arrivals_a_pos hT hi
      cases htarget
  · rintro ⟨hrows, hempty⟩
    -- with one row the empty token is the first
    have hzero : row = 0 := by omega
    subst hzero
    refine .inl ?_
    rw [stores_eq_count]
    refine List.count_pos_iff.mpr ((written_a_perm C T).mem_iff.mpr (List.mem_append_right _ ?_))
    refine (idleWrites_perm C T).mem_iff.mpr ?_
    rw [if_pos ⟨hrows, hempty⟩]
    exact List.mem_map_of_mem (List.mem_range.mpr hch)

/-- Kernel B writes the rows with an active slot. -/
theorem written_out_b {T : RunTable} (hT : TableOk C T) {row chunk : ℕ} (hr : row < C.rows)
    (hch : chunk < 40) :
    Written (bPrograms C T) target (.out row chunk) ↔ tokenActiveSlots C row ≠ 0 := by
  constructor
  · rintro (h | ⟨i, hi, htarget⟩)
    -- kernel B stores no output itself, its last arrivals do
    · rw [stores_eq_count, written_b] at h
      obtain ⟨_, -, hcell⟩ := List.mem_map.mp (List.count_pos_iff.mp h)
      cases hcell
    · obtain ⟨t, ht, ch, hch', rfl⟩ := arrivals_b_pos hT hi
      simp only [target, Cell.out.injEq] at htarget
      have hrow : t / 6 = row := by omega
      rw [← hrow]
      exact Nat.ne_of_gt (tokenActiveSlots_pos ht)
  -- an active slot of the token arrives at the chunk's counter
  · intro hne
    refine .inr ⟨.b (row * 40 + chunk), ?_, ?_⟩
    · rw [arrivals_b hT hr hch]
      exact Nat.mul_pos (Nat.pos_of_ne_zero hne) (tileGpc_pos C.wideB)
    · rw [target]
      exact congrArg₂ Cell.out (by omega) (by omega)

/-! ### Stages -/

/-- The rotated inputs are in memory. -/
def HadOk (C : Call V) (cells : Cell → V) : Prop :=
  1 < C.rows → ∀ s ∈ C.activeSlots, ∀ gate, ∀ c < 40, cells (.had gate s c) = hadValue C gate s c

/-- The activations are in memory. -/
def ActOk (C : Call V) (cells : Cell → V) : Prop :=
  ∀ s ∈ C.activeSlots, ∀ c < 9, cells (.act s c) = actValue C s c

/-- What holds between two kernels. -/
inductive Stage (s : Stream V) : Prop
  | idle (hpending : s.pending = []) (hctr : ∀ i < 432, s.ctr (.a i) = 0)
      (hout : ∀ C, s.call = some C → Outputs C s fun _ => True)
  | beforeRot {C : Call V} (hcall : s.call = some C) (hpending : s.pending = [.rot, .a, .b])
      (hrows : 1 < C.rows) (hctr : ∀ i < 432, s.ctr (.a i) = 0)
      (hout : Outputs C s fun _ => False)
  | beforeA {C : Call V} (hcall : s.call = some C) (hpending : s.pending = [.a, .b])
      (hctr : ∀ i < 432, s.ctr (.a i) = 0) (hT : TableOk C s.runs) (hhad : HadOk C s.cells)
      (hout : Outputs C s fun row => 1 < C.rows ∧ tokenActiveSlots C row = 0)
  | beforeB {C : Call V} (hcall : s.call = some C) (hpending : s.pending = [.b])
      (hctr : ∀ i < 320, s.ctr (.b i) = 0) (hT : TableOk C s.runs) (hact : ActOk C s.cells)
      (hout : Outputs C s fun row => tokenActiveSlots C row = 0)

/-- The counters of kernel A are the first `432`. -/
theorem ctrA_of_zero {T : RunTable} (hT : TableOk C T) {ctr : Counter → ℕ}
    (hctr : ∀ i < 432, ctr (.a i) = 0) :
    ∀ i, 0 < arrivals (aPrograms C T) i → ctr i = 0 := by
  intro i hi
  obtain ⟨t, ht, chunk, hch, rfl⟩ := arrivals_a_pos hT hi
  have := (mem_activeSlots.mp ht).1
  have := slots_le C
  exact hctr _ (by omega)

/-- The counters of kernel B are the first `320`. -/
theorem ctrB_of_zero {T : RunTable} (hT : TableOk C T) {ctr : Counter → ℕ}
    (hctr : ∀ i < 320, ctr (.b i) = 0) :
    ∀ i, 0 < arrivals (bPrograms C T) i → ctr i = 0 := by
  intro i hi
  obtain ⟨t, ht, chunk, hch, rfl⟩ := arrivals_b_pos hT hi
  have := row_lt ht
  have := C.rows_le
  exact hctr _ (by omega)

/-- A call that starts has its counters ready. -/
theorem stage_call (hctr : ∀ i < 432, s.ctr (.a i) = 0) (C : Call V) :
    Stage { s with call := some C, pending := C.kernels, log := [] } := by
  by_cases hrows : 1 < C.rows
  · refine .beforeRot (C := C) rfl (if_pos hrows) hrows hctr ⟨?_, ?_⟩
    · exact fun row _ h => h.elim
    · exact fun row _ _ chunk _ => rfl
  · refine .beforeA (C := C) rfl (if_neg hrows) hctr (fun h => absurd h hrows)
      (fun h => absurd h hrows) ⟨?_, ?_⟩
    · exact fun row _ h => absurd h.1 hrows
    · exact fun row _ _ chunk _ => rfl

/-- After the rotation kernel. -/
theorem stage_rot (hcall : s.call = some C) (hrows : 1 < C.rows)
    (hctr : ∀ i < 432, s.ctr (.a i) = 0) (hout : Outputs C s fun _ => False)
    (hrun : (s.launch C .rot).Reachable c) (hc : Complete c) (buf : ℕ → ℕ) :
    Stage (s.after c (buildRuns C buf s.runs) [.a, .b]) := by
  -- the rotation kernel neither uses nor resets a counter
  have hs : Sound s.cells (programs C s.runs .rot) target (value C) := rot_sound C s.cells
  have hidle : ∀ i, arrivals (programs C s.runs .rot) i = 0 := arrivals_rot C
  have h₀ : ∀ i, 0 < arrivals (programs C s.runs .rot) i → s.ctr i = 0 := by
    intro i hi
    rw [hidle] at hi
    exact absurd hi (Nat.lt_irrefl 0)
  have hnozero : ∀ i, ∀ p ∈ programs C s.runs .rot, Op.zero (.a i) ∉ p := by
    intro i p hp hz
    obtain ⟨_, _, _, h⟩ | ⟨_, _, -, h⟩ := rotOp_cases hp hz
    · cases h
    · cases h
  refine .beforeA (C := C) hcall rfl ?_ (fun _ => ⟨buf, s.runs, rfl⟩) ?_ ?_
  -- the counters of kernel A are still zero
  · intro i hi
    exact (ctr_frame hrun (hidle _) (hnozero i)).trans (hctr i hi)
  -- the rotated rows are there for every active slot
  · intro _ t ht gate ch hch
    have hwritten : Written (programs C s.runs .rot) target (.had gate t ch) := by
      refine .inl ?_
      rw [stores_eq_count]
      exact List.count_pos_iff.mpr (had_mem_rot ht hch gate)
    have hone := count_of_written hs h₀ hrun hc hwritten
    exact (solved_reachable hs h₀ hrun).stored _ (by omega)
  -- the output of empty tokens is done
  · refine hout.after hs h₀ hrun hc (fun _ h => h.elim) (fun row hr chunk hch => ?_) _ _
    refine (written_out_rot hr hch).trans ⟨fun h => ⟨id, hrows, h⟩, fun h => h.2.2⟩

/-- After kernel A. -/
theorem stage_a (hcall : s.call = some C) (hctr : ∀ i < 432, s.ctr (.a i) = 0)
    (hT : TableOk C s.runs) (hhad : HadOk C s.cells)
    (hout : Outputs C s fun row => 1 < C.rows ∧ tokenActiveSlots C row = 0)
    (hrun : (s.launch C .a).Reachable c) (hc : Complete c) :
    Stage (s.after c s.runs [.b]) := by
  have hs : Sound s.cells (programs C s.runs .a) target (value C) := a_sound hT hhad
  have h₀ : ∀ i, 0 < arrivals (programs C s.runs .a) i → s.ctr i = 0 := ctrA_of_zero hT hctr
  -- kernel A has reset the counters of kernel B
  refine .beforeB (C := C) hcall rfl ?_ hT ?_ ?_
  · intro i hi
    obtain ⟨p, hp, hz⟩ := reset_mem_a C s.runs hi
    exact ctr_zeroed hrun hc (hs.zero_unused p hp _ hz) hp hz
  -- the activations of the active slots are complete
  · intro t ht ch hch
    have hused : 0 < arrivals (programs C s.runs .a) (.a (t * 9 + ch)) := by
      have hn := arrivals_a hT ht hch
      have := tileGpc_pos C.wideA
      change 0 < arrivals (aPrograms C s.runs) _
      omega
    have htarget : target (.a (t * 9 + ch)) = .act t ch := by
      rw [target]
      exact congrArg₂ Cell.act (by omega) (by omega)
    have hone := count_of_written hs h₀ hrun hc (.inr ⟨_, hused, htarget⟩)
    exact (solved_reachable hs h₀ hrun).stored _ (by omega)
  -- with one row the empty token is done now
  · refine hout.after hs h₀ hrun hc (fun _ h => h.2) (fun row hr chunk hch => ?_) _ _
    refine (written_out_a hT hr hch).trans ⟨fun h => ⟨fun h' => h.1 h'.1, h.2⟩, fun h => ?_⟩
    exact ⟨fun hrows => h.1 ⟨hrows, h.2⟩, h.2⟩

/-- After kernel B. -/
theorem stage_b (hcall : s.call = some C) (hctr : ∀ i < 320, s.ctr (.b i) = 0)
    (hT : TableOk C s.runs) (hact : ActOk C s.cells)
    (hout : Outputs C s fun row => tokenActiveSlots C row = 0)
    (hrun : (s.launch C .b).Reachable c) (hc : Complete c) :
    Stage (s.after c s.runs []) := by
  have hs : Sound s.cells (programs C s.runs .b) target (value C) := b_sound hT hact
  have h₀ : ∀ i, 0 < arrivals (programs C s.runs .b) i → s.ctr i = 0 := ctrB_of_zero hT hctr
  refine .idle rfl ?_ ?_
  · intro i hi
    obtain ⟨p, hp, hz⟩ := reset_mem_b C s.runs hi
    exact ctr_zeroed hrun hc (hs.zero_unused p hp _ hz) hp hz
  · intro C' hcall'
    obtain rfl : C = C' := Option.some.inj (hcall.symm.trans hcall')
    refine hout.after hs h₀ hrun hc (fun _ _ => trivial) (fun row hr chunk hch => ?_) _ _
    exact (written_out_b hT hr hch).trans ⟨fun h => ⟨h, trivial⟩, fun h => h.1⟩

/-- **The stages follow one another**, call after call. -/
theorem stage_step {s' : Stream V} {l : Label V} (h : Stage s) (hstep : StreamStep s l s') :
    Stage s' := by
  -- a call starts from rest, and a kernel in its turn
  cases hstep with
  | rejected => exact h
  | @accepted a C hidle hcheck =>
    cases h with
    | idle _ hctr _ => exact stage_call hctr C
    | beforeRot _ hpending => exact absurd (hidle.symm.trans hpending) (by simp)
    | beforeA _ hpending => exact absurd (hidle.symm.trans hpending) (by simp)
    | beforeB _ hpending => exact absurd (hidle.symm.trans hpending) (by simp)
  | @kernel C k rest c T hcall hpending hrun hc hruns =>
    cases h with
    | idle hnone => exact absurd (hnone.symm.trans hpending) (by simp)
    | @beforeRot C' hcall' hpending' hrows hctr hout =>
      obtain rfl : C = C' := Option.some.inj (hcall.symm.trans hcall')
      obtain ⟨rfl, rfl⟩ := List.cons.inj (hpending.symm.trans hpending')
      obtain ⟨-, buf, rfl⟩ | ⟨hne, -⟩ := hruns
      · exact stage_rot hcall hrows hctr hout hrun hc buf
      · exact absurd rfl hne
    | @beforeA C' hcall' hpending' hctr hT hhad hout =>
      obtain rfl : C = C' := Option.some.inj (hcall.symm.trans hcall')
      obtain ⟨rfl, rfl⟩ := List.cons.inj (hpending.symm.trans hpending')
      obtain ⟨hrot, -⟩ | ⟨-, rfl⟩ := hruns
      · cases hrot
      · exact stage_a hcall hctr hT hhad hout hrun hc
    | @beforeB C' hcall' hpending' hctr hT hact hout =>
      obtain rfl : C = C' := Option.some.inj (hcall.symm.trans hcall')
      obtain ⟨rfl, rfl⟩ := List.cons.inj (hpending.symm.trans hpending')
      obtain ⟨hrot, -⟩ | ⟨-, rfl⟩ := hruns
      · cases hrot
      · exact stage_b hcall hctr hT hact hout hrun hc

/-- **Every reachable stream is at a stage.** -/
theorem stage_reachable (h : (stream V).Reachable s) : Stage s := by
  refine h.invariant ?_ ?_
  · rintro s ⟨hctr, hcall, hpending, -⟩
    refine .idle hpending (fun i _ => hctr _) fun C hC => ?_
    rw [hcall] at hC
    cases hC
  · intro s l s' hI hstep
    exact stage_step hI (l := l) hstep

/-! ### The protocol -/

/-- The gate and up tiles of a slot's chunk. -/
def guTiles (C : Call V) (slot chunk : ℕ) : List Cell :=
  [true, false].flatMap fun gate => (List.range (tileGpc C.wideA)).map fun j =>
    .gu gate slot (chunk * tileGpc C.wideA + j)

/-- The down tiles of a row's chunk, for all its active slots. -/
def downTiles (C : Call V) (row chunk : ℕ) : List Cell :=
  (C.activeSlots.filter fun s => decide (s / 6 = row)).flatMap fun s =>
    (List.range (tileGpc C.wideB)).map fun j => .dOut s (chunk * tileGpc C.wideB + j)

/-- In this configuration of a launch the cell was stored at most once, not before all the
tiles, and if the blocks have run to their end exactly once. -/
structure StoredOnceAfter (c : Config V) (cell : Cell) (tiles : List Cell) : Prop where
  le_one : c.shared.count cell ≤ 1
  after : ∀ before rest v, c.shared.log = before ++ (cell, v) :: rest →
    ∀ t ∈ tiles, t ∈ before.map Prod.fst
  complete : Complete c → c.shared.count cell = 1

/-- The cell of a counter in use is stored once after the covered cells. -/
theorem storedOnceAfter_target {ps : List (Program V)} {cells : Cell → V} {ctr : Counter → ℕ}
    (hs : Sound cells ps target (value C)) (h₀ : ∀ i, 0 < arrivals ps i → ctr i = 0)
    (hrun : (Completion.launch cells ctr ps).Reachable c) {i : Counter}
    (hi : 0 < arrivals ps i) {tiles : List Cell} (hcov : ∀ t ∈ tiles, Covered ps i t) :
    StoredOnceAfter c (target i) tiles where
  le_one := count_target_le hs h₀ hi hrun
  after _ _ _ hlog t ht := covered_before hs h₀ hi hrun hlog (hcov t ht)
  complete hc := (once_of_complete hs h₀ hrun hc).1 i hi

/-- Every kernel on the stream can be run to its end. -/
theorem exists_kernel_step {rest : List Kernel} (hcall : s.call = some C)
    (hpending : s.pending = k :: rest) :
    ∃ c T, Complete c ∧ StreamStep s .kernel (s.after c T rest) := by
  have hstart : (s.launch C k).Reachable _ := .init rfl
  obtain ⟨c, hrun, hc⟩ := exists_complete hstart
  by_cases hk : k = .rot
  · exact ⟨c, _, hc, .kernel hcall hpending hrun hc (.inl ⟨hk, fun _ => 0, rfl⟩)⟩
  · exact ⟨c, _, hc, .kernel hcall hpending hrun hc (.inr ⟨hk, rfl⟩)⟩

/-- Every call on the stream can be run to its end. -/
theorem exists_call_end (h : (stream V).Reachable s) (hcall : s.call = some C) :
    ∃ s', (stream V).Reachable s' ∧ s'.call = some C ∧ s'.pending = [] := by
  induction hp : s.pending generalizing s with
  | nil => exact ⟨s, h, hcall, hp⟩
  | cons k rest ih =>
    obtain ⟨c, T, -, hstep⟩ := exists_kernel_step hcall hp
    exact ih (.step h trivial hstep) hcall rfl

/-! ### The protocol -/

/-- What holds before kernel A. -/
structure ReadyA (C : Call V) (s : Stream V) : Prop where
  call : s.call = some C
  ctr : ∀ i < 432, s.ctr (.a i) = 0
  table : TableOk C s.runs
  had : HadOk C s.cells

/-- What holds before kernel B. -/
structure ReadyB (C : Call V) (s : Stream V) : Prop where
  call : s.call = some C
  ctr : ∀ i < 320, s.ctr (.b i) = 0
  table : TableOk C s.runs
  act : ActOk C s.cells

theorem exists_readyA (h : (stream V).Reachable s) {rest : List Kernel}
    (ha : s.pending = .a :: rest) : ∃ C, ReadyA C s := by
  cases stage_reachable h with
  | idle hp => cases ha.symm.trans hp
  | beforeRot _ hp => cases ha.symm.trans hp
  | beforeA hcall _ hctr hT hhad => exact ⟨_, hcall, hctr, hT, hhad⟩
  | beforeB _ hp => cases ha.symm.trans hp

theorem exists_readyB (h : (stream V).Reachable s) {rest : List Kernel}
    (hb : s.pending = .b :: rest) : ∃ C, ReadyB C s := by
  cases stage_reachable h with
  | idle hp => cases hb.symm.trans hp
  | beforeRot _ hp => cases hb.symm.trans hp
  | beforeA _ hp => cases hb.symm.trans hp
  | beforeB hcall _ hctr hT hact => exact ⟨_, hcall, hctr, hT, hact⟩

/-- The epilogue of an active slot's chunk. -/
theorem ReadyA.storedOnceAfter (hs : ReadyA C s) (hrun : (s.launch C .a).Reachable c)
    {slot chunk : ℕ} (hslot : slot ∈ C.activeSlots) (hchunk : chunk < 9) :
    StoredOnceAfter c (.act slot chunk) (guTiles C slot chunk) := by
  -- the counter that stands for the chunk is used
  have htarget : target (.a (slot * 9 + chunk)) = .act slot chunk := by
    rw [target]
    exact congrArg₂ Cell.act (by omega) (by omega)
  have hused : 0 < arrivals (programs C s.runs .a) (.a (slot * 9 + chunk)) := by
    have hn := arrivals_a hs.table hslot hchunk
    have := tileGpc_pos C.wideA
    change 0 < arrivals (aPrograms C s.runs) _
    omega
  rw [← htarget]
  refine storedOnceAfter_target (a_sound hs.table hs.had) (ctrA_of_zero hs.table hs.ctr) hrun
    hused ?_
  -- the chunk's counter covers the gate and the up tiles of its groups
  intro t ht
  obtain ⟨gate, -, ht⟩ := List.mem_flatMap.mp ht
  obtain ⟨j, hj, rfl⟩ := List.mem_map.mp ht
  exact covered_a hs.table hslot hchunk (List.mem_range.mp hj) gate

/-- The reduction of a row's chunk. -/
theorem ReadyB.storedOnceAfter (hs : ReadyB C s) (hrun : (s.launch C .b).Reachable c)
    {row chunk : ℕ} (hrow : row < C.rows) (hactive : tokenActiveSlots C row ≠ 0)
    (hchunk : chunk < 40) : StoredOnceAfter c (.out row chunk) (downTiles C row chunk) := by
  -- the counter that stands for the chunk is used
  have htarget : target (.b (row * 40 + chunk)) = .out row chunk := by
    rw [target]
    exact congrArg₂ Cell.out (by omega) (by omega)
  have hused : 0 < arrivals (programs C s.runs .b) (.b (row * 40 + chunk)) := by
    have hn := arrivals_b hs.table hrow hchunk
    change 0 < arrivals (bPrograms C s.runs) _
    rw [hn]
    exact Nat.mul_pos (Nat.pos_of_ne_zero hactive) (tileGpc_pos C.wideB)
  rw [← htarget]
  refine storedOnceAfter_target (b_sound hs.table hs.act) (ctrB_of_zero hs.table hs.ctr) hrun
    hused ?_
  -- the chunk's counter covers the down tiles of the row's active slots
  intro t ht
  obtain ⟨slot, hslot, ht⟩ := List.mem_flatMap.mp ht
  obtain ⟨j, hj, rfl⟩ := List.mem_map.mp ht
  obtain ⟨hslot, hrow⟩ := List.mem_filter.mp hslot
  rw [← of_decide_eq_true hrow]
  exact covered_b hs.table hslot hchunk (List.mem_range.mp hj)

/-- After the call every output chunk was written. -/
theorem once_of_ended (h : (stream V).Reachable s) (hcall : s.call = some C)
    (hend : s.pending = []) {row chunk : ℕ} (hrow : row < C.rows) (hchunk : chunk < 40) :
    Once C s row chunk := by
  cases stage_reachable h with
  | idle _ _ hout => exact (hout C hcall).once row hrow trivial chunk hchunk
  | beforeRot _ hp => cases hend.symm.trans hp
  | beforeA _ hp => cases hend.symm.trans hp
  | beforeB _ hp => cases hend.symm.trans hp

/-- **The completion protocol.** On every run of calls over one counter buffer that starts
zeroed: a gate/up kernel starts with all of `ctr_a` zero and a down kernel with all of
`ctr_b`; in every interleaving of its blocks the epilogue of an active slot's chunk and the
reduction of a row's chunk run at most once, after all their tiles, and exactly once by the
end; and after the call every output chunk was written once, with the fixed-order sum. -/
theorem cooperative_completion {s : Stream V} (h : (stream V).Reachable s) :
    (∀ rest, s.pending = .a :: rest → ∀ i < 432, s.ctr (.a i) = 0) ∧
    (∀ rest, s.pending = .b :: rest → ∀ i < 320, s.ctr (.b i) = 0) ∧
    ∀ C, s.call = some C →
      (∀ rest, s.pending = .a :: rest → ∀ c, (s.launch C .a).Reachable c →
        ∀ slot ∈ C.activeSlots, ∀ chunk < 9,
          StoredOnceAfter c (.act slot chunk) (guTiles C slot chunk)) ∧
      (∀ rest, s.pending = .b :: rest → ∀ c, (s.launch C .b).Reachable c →
        ∀ row < C.rows, tokenActiveSlots C row ≠ 0 → ∀ chunk < 40,
          StoredOnceAfter c (.out row chunk) (downTiles C row chunk)) ∧
      (s.pending = [] → ∀ row < C.rows, ∀ chunk < 40, Once C s row chunk) := by
  -- the counters and the launch of each kernel
  refine ⟨?_, ?_, ?_⟩
  · intro rest ha
    obtain ⟨C, hs⟩ := exists_readyA h ha
    exact hs.ctr
  · intro rest hb
    obtain ⟨C, hs⟩ := exists_readyB h hb
    exact hs.ctr
  · intro C hC
    refine ⟨?_, ?_, ?_⟩
    · intro rest ha c hrun slot hslot chunk hchunk
      obtain ⟨C', hs⟩ := exists_readyA h ha
      obtain rfl : C = C' := Option.some.inj (hC.symm.trans hs.call)
      exact hs.storedOnceAfter hrun hslot hchunk
    · intro rest hb c hrun row hrow hactive chunk hchunk
      obtain ⟨C', hs⟩ := exists_readyB h hb
      obtain rfl : C = C' := Option.some.inj (hC.symm.trans hs.call)
      exact hs.storedOnceAfter hrun hrow hactive hchunk
    -- a call that has ended has every chunk of the output once
    · intro hend row hrow chunk hchunk
      exact once_of_ended h hC hend hrow hchunk

/-- Counting instead of arithmetic. -/
def countingArith : Arith ℕ where
  zero := 0
  add := (· + ·)
  axpy w v o := o + w.toNat * v
  join := List.sum
  rotate _ _ _ x := x
  gemv _ _ _ input := input.sum
  epilogue _ _ g u := g + u
  down _ _ input := input.sum
  term _ _ v := v
  junk := 0

/-- One row whose only weight is that of its first slot. -/
def oneRow : Args ℕ where
  pointers := true
  prepared := true
  bits := 2
  rows := 1
  experts := 1
  limit := 0
  geometry := 0
  guF32 := 0
  ids _ := 0
  weights s := if s = 0 then 1 else 0
  x _ _ := 1
  arith := countingArith

theorem cooperative_completion_oneRow :
    ∃ C s, goal50CoopLaunch oneRow = some C ∧ (stream ℕ).Reachable s ∧ s.call = some C ∧
      s.pending = [] ∧ Once C s 0 0 := by
  have hvalid : ¬ oneRow.Invalid := by decide
  obtain ⟨C, hC⟩ : ∃ C, goal50CoopLaunch oneRow = some C := ⟨_, dif_neg hvalid⟩
  let s₀ : Stream ℕ := ⟨fun _ => 7, fun _ => 0, ⟨0, fun _ => 0, fun _ => 0⟩, none, [], []⟩
  have hinit : (stream ℕ).Reachable s₀ := .init ⟨fun _ => rfl, rfl, rfl, rfl⟩
  have hstep : (stream ℕ).step s₀ (.call oneRow) _ := StreamStep.accepted rfl hC
  obtain ⟨s, hr, hcall, hend⟩ := exists_call_end (.step hinit trivial hstep) rfl
  refine ⟨C, s, hC, hr, hcall, hend, ?_⟩
  exact ((cooperative_completion hr).2.2 C hcall).2.2 hend 0 C.rows_pos 0 (by decide)

end Dsv41Overlay.Cooperative
