import Dsv41Overlay.Lib.Interleave
import Mathlib.Logic.Function.Basic
import Mathlib.Data.List.Count

/-!
# Completion counters

Blocks of one kernel launch run in any interleaving. A block stores cells, then
*arrives* at counters; the arrival that brings a counter to the expected number
makes its block store one more cell, computed from what the blocks that arrived
have stored.

A launch is `Sound` when every cell has one writer, every counter expects as many
arrivals as the programs hold, and the cells that are read are either not written
by the launch or stored before an arrival at the counter (`Covered`). Then, in
every interleaving, the cell of a counter is stored at most once, not before every
covered cell (`covered_before`), and exactly once when the blocks have run to their
end (`once_of_complete`); every stored value is the one value that solves the
launch's equations (`solved_reachable`). Every run has such an end (`exists_complete`).
-/

namespace Dsv41Overlay.Completion

variable {ι κ V : Type*}

/-! ### Blocks -/

/-- What a block does next: store a cell computed from the memory, reset a counter,
or arrive at a counter that expects `n` arrivals and whose last arrival stores `c`. -/
inductive Op (ι κ V : Type*)
  | put (c : ι) (f : (ι → V) → V)
  | zero (k : κ)
  | arrive (k : κ) (n : ℕ) (c : ι) (f : (ι → V) → V)

/-- A block: what it has done, what it has still to do, and the store it owes when it
was the last to arrive. -/
structure Block (ι κ V : Type*) where
  done : List (Op ι κ V)
  todo : List (Op ι κ V)
  last : Option (ι × ((ι → V) → V))

/-- The block's program. -/
def Block.program (b : Block ι κ V) : List (Op ι κ V) := b.done ++ b.todo

/-- Nothing is left to do. -/
def Block.Finished (b : Block ι κ V) : Prop := b.todo = [] ∧ b.last = none

/-- The device memory: cells, counters, and the stores in the order they landed. -/
structure Memory (ι κ V : Type*) where
  cells : ι → V
  ctr : κ → ℕ
  log : List (ι × V)

section Run

variable [DecidableEq ι] [DecidableEq κ]

/-- Store `f` of the memory in `c`. -/
def Memory.store (m : Memory ι κ V) (c : ι) (f : (ι → V) → V) : Memory ι κ V :=
  { m with
    cells := Function.update m.cells c (f m.cells)
    log := m.log ++ [(c, f m.cells)] }

/-- One section of a block. -/
def act : Interleave.Section (Memory ι κ V) (Block ι κ V) Unit Empty := fun m b _ =>
  match b.last, b.todo with
  | some (c, f), _ => some (.ok (m.store c f, { b with last := none }))
  | none, [] => none
  | none, .put c f :: rest => some (.ok (m.store c f, ⟨b.done ++ [.put c f], rest, none⟩))
  | none, .zero k :: rest =>
    some (.ok ({ m with ctr := Function.update m.ctr k 0 }, ⟨b.done ++ [.zero k], rest, none⟩))
  | none, .arrive k n c f :: rest =>
    some (.ok ({ m with ctr := Function.update m.ctr k (m.ctr k + 1) },
      ⟨b.done ++ [.arrive k n c f], rest, if m.ctr k + 1 = n then some (c, f) else none⟩))

/-- A launch of the given programs on the given memory. -/
abbrev launch (cells : ι → V) (ctr : κ → ℕ) (programs : List (List (Op ι κ V))) :
    System (Interleave (Memory ι κ V) (Block ι κ V)) (ℕ × Unit) :=
  Interleave.system
    (fun c => c = ⟨⟨cells, ctr, []⟩, programs.map fun p => ⟨[], p, none⟩⟩) act

/-- What one section does. -/
inductive Does (m : Memory ι κ V) : Block ι κ V → Memory ι κ V → Block ι κ V → Prop
  | settle {done todo : List (Op ι κ V)} {c : ι} {f : (ι → V) → V} :
      Does m ⟨done, todo, some (c, f)⟩ (m.store c f) ⟨done, todo, none⟩
  | put {done rest : List (Op ι κ V)} {c : ι} {f : (ι → V) → V} :
      Does m ⟨done, .put c f :: rest, none⟩ (m.store c f) ⟨done ++ [.put c f], rest, none⟩
  | zero {done rest : List (Op ι κ V)} {k : κ} :
      Does m ⟨done, .zero k :: rest, none⟩ { m with ctr := Function.update m.ctr k 0 }
        ⟨done ++ [.zero k], rest, none⟩
  | arrive {done rest : List (Op ι κ V)} {k : κ} {n : ℕ} {c : ι} {f : (ι → V) → V} :
      Does m ⟨done, .arrive k n c f :: rest, none⟩
        { m with ctr := Function.update m.ctr k (m.ctr k + 1) }
        ⟨done ++ [.arrive k n c f], rest, if m.ctr k + 1 = n then some (c, f) else none⟩

theorem act_does {m m' : Memory ι κ V} {b b' : Block ι κ V} {x : Unit}
    (h : act m b x = some (.ok (m', b'))) : Does m b m' b' := by
  obtain ⟨done, todo, last⟩ := b
  cases last with
  | some cf =>
    obtain ⟨c, f⟩ := cf
    cases h
    exact .settle
  | none =>
    cases todo with
    | nil => cases h
    | cons op rest =>
      cases op with
      | put c f =>
        cases h
        exact .put
      | zero k =>
        cases h
        exact .zero
      | arrive k n c f =>
        cases h
        exact .arrive

/-- A block that is not finished can run. -/
theorem act_isSome {m : Memory ι κ V} {b : Block ι κ V} (h : ¬ b.Finished) :
    (act m b ()).isSome := by
  obtain ⟨done, todo, last⟩ := b
  cases last with
  | some cf => rfl
  | none =>
    cases todo with
    | nil => exact absurd ⟨rfl, rfl⟩ h
    | cons op rest => cases op <;> rfl

/-- Nobody changes a program. -/
theorem Does.program {m m' : Memory ι κ V} {b b' : Block ι κ V} (h : Does m b m' b') :
    b'.program = b.program := by
  cases h with
  | settle => rfl
  | put => exact List.append_assoc ..
  | zero => exact List.append_assoc ..
  | arrive => exact List.append_assoc ..

end Run

/-! ### Counting stores and arrivals -/

/-- The operation stores `c`. -/
def Op.puts [DecidableEq ι] (c : ι) : Op ι κ V → Bool
  | .put c' _ => c' = c
  | _ => false

/-- The operation arrives at `k`. -/
def Op.arrivesAt [DecidableEq κ] (k : κ) : Op ι κ V → Bool
  | .arrive k' _ _ _ => k' = k
  | _ => false

/-- The cell that the operation stores. -/
def Op.cell? : Op ι κ V → Option ι
  | .put c _ => some c
  | _ => none

/-- The counter that the operation arrives at. -/
def Op.key? : Op ι κ V → Option κ
  | .arrive k _ _ _ => some k
  | _ => none

/-- The cells that the programs store, program by program. -/
def written (programs : List (List (Op ι κ V))) : List ι :=
  programs.flatMap (List.filterMap Op.cell?)

/-- The counters that the programs arrive at, program by program. -/
def arrived (programs : List (List (Op ι κ V))) : List κ :=
  programs.flatMap (List.filterMap Op.key?)

section Plan

variable [DecidableEq ι] [DecidableEq κ]

/-- How many operations of the programs store `c`. -/
def stores (programs : List (List (Op ι κ V))) (c : ι) : ℕ :=
  (programs.map (List.countP (Op.puts c))).sum

/-- How many operations of the programs arrive at `k`. -/
def arrivals (programs : List (List (Op ι κ V))) (k : κ) : ℕ :=
  (programs.map (List.countP (Op.arrivesAt k))).sum

omit [DecidableEq ι] [DecidableEq κ] in
theorem sum_countP_eq_count {β : Type*} [DecidableEq β] {q : β → Op ι κ V → Bool}
    {f : Op ι κ V → Option β} (h : ∀ b op, q b op = decide (f op = some b)) (b : β)
    (programs : List (List (Op ι κ V))) :
    (programs.map (List.countP (q b))).sum = (programs.flatMap (List.filterMap f)).count b := by
  rw [List.count_flatMap]
  refine congrArg List.sum (List.map_congr_left fun p _ => ?_)
  rw [Function.comp_apply, List.count_eq_countP, List.countP_filterMap]
  refine List.countP_congr fun op _ => ?_
  rw [h]
  cases f op with
  | none => simp
  | some b' => simp

omit [DecidableEq κ] in
theorem stores_eq_count (programs : List (List (Op ι κ V))) (c : ι) :
    stores programs c = (written programs).count c := by
  refine sum_countP_eq_count (fun c op => ?_) c programs
  cases op <;> simp [Op.puts, Op.cell?]

omit [DecidableEq ι] in
theorem arrivals_eq_count (programs : List (List (Op ι κ V))) (k : κ) :
    arrivals programs k = (arrived programs).count k := by
  refine sum_countP_eq_count (fun k op => ?_) k programs
  cases op <;> simp [Op.arrivesAt, Op.key?]

/-- The launch writes `c`. -/
def Written (programs : List (List (Op ι κ V))) (target : κ → ι) (c : ι) : Prop :=
  0 < stores programs c ∨ ∃ k, 0 < arrivals programs k ∧ target k = c

/-- Some block stores `c` before it arrives at `k`. -/
def Covered (programs : List (List (Op ι κ V))) (k : κ) (c : ι) : Prop :=
  ∃ p ∈ programs, ∃ pre post n d f g,
    p = pre ++ .arrive k n d f :: post ∧ Op.put c g ∈ pre

omit [DecidableEq ι] [DecidableEq κ] in
/-- Stores come before arrivals: each store of a block covers each of its arrivals. -/
theorem covered_of_append {programs : List (List (Op ι κ V))} {pre arrives : List (Op ι κ V)}
    (hp : pre ++ arrives ∈ programs)
    {k : κ} {n : ℕ} {d c : ι} {f g : (ι → V) → V} (harr : .arrive k n d f ∈ arrives)
    (hput : .put c g ∈ pre) : Covered programs k c := by
  obtain ⟨s, t, rfl⟩ := List.append_of_mem harr
  exact ⟨_, hp, pre ++ s, t, n, d, f, g, (List.append_assoc ..).symm, List.mem_append_left _ hput⟩

/-- **A launch that completes**: every cell has one writer, a counter is not reset
where it is used and expects all arrivals, and `val` solves the equations of the
stores, which read cells that the launch does not write and, for the last arrival,
cells that are stored before an arrival. -/
structure Sound (cells : ι → V) (programs : List (List (Op ι κ V))) (target : κ → ι)
    (val : ι → V) : Prop where
  put_once : ∀ c, stores programs c ≤ 1
  target_inj : ∀ k k', 0 < arrivals programs k → 0 < arrivals programs k' →
    target k = target k' → k = k'
  target_not_put : ∀ k, 0 < arrivals programs k → stores programs (target k) = 0
  zero_unused : ∀ p ∈ programs, ∀ k, Op.zero k ∈ p → arrivals programs k = 0
  put_val : ∀ p ∈ programs, ∀ c f, Op.put c f ∈ p → ∀ m : ι → V,
    (∀ c', ¬ Written programs target c' → m c' = cells c') → f m = val c
  arrive_val : ∀ p ∈ programs, ∀ k n c f, Op.arrive k n c f ∈ p →
    n = arrivals programs k ∧ c = target k ∧ ∀ m : ι → V,
      (∀ c', ¬ Written programs target c' → m c' = cells c') →
      (∀ c', Covered programs k c' → m c' = val c') → f m = val c

/-! ### Every interleaving -/

variable {cells : ι → V} {ctr : κ → ℕ} {programs : List (List (Op ι κ V))} {target : κ → ι}
  {val : ι → V} {c : Interleave (Memory ι κ V) (Block ι κ V)}

/-- How often `c` was stored. -/
def Memory.count (m : Memory ι κ V) (c : ι) : ℕ := m.log.countP fun e => e.1 = c

omit [DecidableEq κ] in
theorem count_append (m : Memory ι κ V) (e : ι × V) (c : ι) :
    (m.log ++ [e]).countP (fun e => e.1 = c) = m.count c + if e.1 = c then 1 else 0 := by
  simp [Memory.count, List.countP_append, List.countP_singleton]

omit [DecidableEq κ] in
theorem count_store (m : Memory ι κ V) (d : ι) (f : (ι → V) → V) (c : ι) :
    (m.store d f).count c = m.count c + if d = c then 1 else 0 := count_append m (d, _) c

theorem programs_reachable (h : (launch cells ctr programs).Reachable c) :
    c.threads.map Block.program = programs := by
  refine Interleave.map_invariant (fun c h₀ => ?_) (fun _ _ _ _ _ hact => (act_does hact).program) h
  subst h₀
  simp [Block.program, Function.comp_def]

/-- A program of a reached block is one of the launch. -/
theorem program_mem (h : (launch cells ctr programs).Reachable c) {b : Block ι κ V}
    (hb : b ∈ c.threads) : b.program ∈ programs := by
  rw [← programs_reachable h]
  exact List.mem_map_of_mem hb

/-- What the programs hold is what is done and what is left. -/
theorem total_eq (h : (launch cells ctr programs).Reachable c) (q : Op ι κ V → Bool) :
    (programs.map (List.countP q)).sum =
      (c.threads.map fun b => b.done.countP q).sum +
        (c.threads.map fun b => b.todo.countP q).sum := by
  rw [← programs_reachable h, List.map_map, ← List.sum_map_add]
  refine congrArg List.sum (List.map_congr_left fun b _ => ?_)
  exact List.countP_append

/-- **A counter counts the arrivals.** -/
theorem ctr_reachable (hs : Sound cells programs target val) {k : κ} (h₀ : ctr k = 0)
    (hk : 0 < arrivals programs k) (h : (launch cells ctr programs).Reachable c) :
    c.shared.ctr k = (c.threads.map fun b => b.done.countP (Op.arrivesAt k)).sum := by
  -- arrivals that are done and the value of the counter grow together
  have hsum := Interleave.sum_invariant (G := fun _ => True)
    (K := fun b : Block ι κ V => Op.zero k ∉ b.todo) (g := fun m : Memory ι κ V => m.ctr k)
    (f := fun b => b.done.countP (Op.arrivesAt k)) (n := 0) ?_ ?_ h
  · rw [hsum, Nat.zero_add]
  · rintro c rfl
    refine ⟨⟨trivial, fun b hb => ?_⟩, by simp [h₀, Function.comp_def]⟩
    obtain ⟨p, hp, rfl⟩ := List.mem_map.mp hb
    intro hz
    have := hs.zero_unused p hp k hz
    omega
  · intro m b x m' b' _ hz hact
    cases act_does hact with
    | settle => exact ⟨⟨trivial, hz⟩, rfl⟩
    | put =>
      refine ⟨⟨trivial, fun h => hz (List.mem_cons_of_mem _ h)⟩, ?_⟩
      simp [Memory.store, List.countP_append, Op.arrivesAt]
    | @zero done rest k' =>
      refine ⟨⟨trivial, fun h => hz (List.mem_cons_of_mem _ h)⟩, ?_⟩
      have hne : k ≠ k' := by
        rintro rfl
        exact hz List.mem_cons_self
      simp [List.countP_append, Op.arrivesAt, Function.update_of_ne hne]
    | @arrive done rest k' n d f =>
      -- an arrival at another counter leaves this one alone
      refine ⟨⟨trivial, fun h => hz (List.mem_cons_of_mem _ h)⟩, ?_⟩
      by_cases hk' : k' = k
      · subst hk'
        simp [List.countP_append, Op.arrivesAt]
        omega
      · simp [List.countP_append, Op.arrivesAt, hk', Function.update_of_ne (Ne.symm hk')]

omit [DecidableEq ι] in
theorem arrivals_pos {p : List (Op ι κ V)} (hp : p ∈ programs) {k : κ} {n : ℕ} {d : ι}
    {f : (ι → V) → V} (hop : Op.arrive k n d f ∈ p) : 0 < arrivals programs k := by
  have hone : 0 < p.countP (Op.arrivesAt k) :=
    List.countP_pos_iff.mpr ⟨_, hop, by simp [Op.arrivesAt]⟩
  obtain ⟨i, hi⟩ := List.mem_iff_getElem?.mp hp
  exact Nat.lt_of_lt_of_le hone (Interleave.le_sum_of_getElem? (List.countP (Op.arrivesAt k)) hi)

omit [DecidableEq κ] in
theorem stores_pos {p : List (Op ι κ V)} (hp : p ∈ programs) {d : ι} {f : (ι → V) → V}
    (hop : Op.put d f ∈ p) : 0 < stores programs d := by
  have hone : 0 < p.countP (Op.puts d) :=
    List.countP_pos_iff.mpr ⟨_, hop, by simp [Op.puts]⟩
  obtain ⟨i, hi⟩ := List.mem_iff_getElem?.mp hp
  exact Nat.lt_of_lt_of_le hone (Interleave.le_sum_of_getElem? (List.countP (Op.puts d)) hi)

/-- A counter never passes what the launch holds, and is below it while an arrival is
left. -/
theorem ctr_lt (hs : Sound cells programs target val) {k : κ} (h₀ : ctr k = 0)
    (hk : 0 < arrivals programs k) (h : (launch cells ctr programs).Reachable c)
    {b : Block ι κ V} (hb : b ∈ c.threads) (hleft : 0 < b.todo.countP (Op.arrivesAt k)) :
    c.shared.ctr k < arrivals programs k := by
  have htotal := total_eq h (Op.arrivesAt k)
  obtain ⟨i, hi⟩ := List.mem_iff_getElem?.mp hb
  have hle := Interleave.le_sum_of_getElem? (fun b => b.todo.countP (Op.arrivesAt k)) hi
  rw [ctr_reachable hs h₀ hk h, arrivals]
  omega

/-- When the counter is full, every arrival has happened. -/
theorem arrived_of_full (hs : Sound cells programs target val) {k : κ} (h₀ : ctr k = 0)
    (hk : 0 < arrivals programs k) (h : (launch cells ctr programs).Reachable c)
    (hfull : c.shared.ctr k = arrivals programs k) {b : Block ι κ V} (hb : b ∈ c.threads) :
    b.todo.countP (Op.arrivesAt k) = 0 := by
  by_contra hne
  have := ctr_lt hs h₀ hk h hb (Nat.pos_of_ne_zero hne)
  omega

/-- **A plain store** is in the log as often as it was done. -/
theorem count_put (hs : Sound cells programs target val) {d : ι}
    (hd : ∀ k, 0 < arrivals programs k → target k ≠ d)
    (h : (launch cells ctr programs).Reachable c) :
    c.shared.count d = (c.threads.map fun b => b.done.countP (Op.puts d)).sum := by
  -- stores to a cell are plain operations where no counter completes at it
  have hsum := Interleave.sum_invariant (G := fun _ => True)
    (K := fun b : Block ι κ V => (∀ k n d' f, Op.arrive k n d' f ∈ b.todo → d' ≠ d) ∧
      ∀ d' f, b.last = some (d', f) → d' ≠ d)
    (g := fun m : Memory ι κ V => m.count d) (f := fun b => b.done.countP (Op.puts d))
    (n := 0) ?_ ?_ h
  · rw [hsum, Nat.zero_add]
  · rintro c rfl
    refine ⟨⟨trivial, fun b hb => ?_⟩, by simp [Memory.count, Function.comp_def]⟩
    obtain ⟨p, hp, rfl⟩ := List.mem_map.mp hb
    refine ⟨fun k n d' f hop => ?_, fun d' f hlast => by cases hlast⟩
    rw [(hs.arrive_val p hp k n d' f hop).2.1]
    exact hd k (arrivals_pos hp hop)
  · rintro m b x m' b' - ⟨harr, hlast⟩ hact
    cases act_does hact with
    | @settle done todo d' f =>
      refine ⟨⟨trivial, harr, fun d' f h => by cases h⟩, ?_⟩
      rw [count_store, if_neg (hlast d' f rfl), Nat.add_zero]
    | @put done rest d' f =>
      refine ⟨⟨trivial, fun k n d' f h => harr k n d' f (List.mem_cons_of_mem _ h), hlast⟩, ?_⟩
      rw [count_store, List.countP_append, List.countP_singleton]
      by_cases hd' : d' = d
      · simp [Op.puts, hd']
        omega
      · simp [Op.puts, hd']
    | zero =>
      refine ⟨⟨trivial, fun k n d' f h => harr k n d' f (List.mem_cons_of_mem _ h), hlast⟩, ?_⟩
      simp [Memory.count, List.countP_append, Op.puts]
    | @arrive done rest k n d' f =>
      refine ⟨⟨trivial, fun k n d' f h => harr k n d' f (List.mem_cons_of_mem _ h), ?_⟩, ?_⟩
      · intro d'' f'' hl
        dsimp only at hl
        split at hl
        · cases hl
          exact harr k n d' f List.mem_cons_self
        · cases hl
      · simp [Memory.count, List.countP_append, Op.puts]

/-- **The last arrival**: a block that owes a store arrived at a counter that is now
full. -/
theorem owed_reachable (hs : Sound cells programs target val)
    (h₀ : ∀ k, 0 < arrivals programs k → ctr k = 0)
    (h : (launch cells ctr programs).Reachable c) {b : Block ι κ V} (hb : b ∈ c.threads) {d : ι}
    {f : (ι → V) → V} (hlast : b.last = some (d, f)) :
    ∃ k n, Op.arrive k n d f ∈ b.done ∧ c.shared.ctr k = arrivals programs k := by
  -- a block owes a completion only after it has seen the counter full
  have hinv := Interleave.each_invariant
    (K := fun (m : Memory ι κ V) _ (b : Block ι κ V) => ∀ d f, b.last = some (d, f) →
      ∃ k n, Op.arrive k n d f ∈ b.done ∧ m.ctr k = arrivals programs k) ?_ ?_ h
  · obtain ⟨i, hi⟩ := List.mem_iff_getElem?.mp hb
    exact hinv i b hi d f hlast
  · rintro c rfl i b hi d f hl
    obtain ⟨p, -, rfl⟩ := List.mem_map.mp (List.mem_of_getElem? hi)
    cases hl
  · intro c i b x m' b' hr hK hi hact
    have hmem := List.mem_of_getElem? hi
    have hprog := program_mem hr hmem
    -- a full counter stays full
    have hkeep : ∀ k, 0 < arrivals programs k → c.shared.ctr k = arrivals programs k →
        m'.ctr k = arrivals programs k := by
      intro k hk hfull
      have harrived := arrived_of_full hs (h₀ k hk) hk hr hfull hmem
      cases act_does hact with
      | settle => exact hfull
      | put => exact hfull
      | @zero done rest k' =>
        have hz := hs.zero_unused _ hprog k' (List.mem_append_right _ List.mem_cons_self)
        have hne : k ≠ k' := by
          rintro rfl
          omega
        exact (Function.update_of_ne hne _ _).trans hfull
      | @arrive done rest k' n d f =>
        have hne : k ≠ k' := by
          rintro rfl
          simp [Op.arrivesAt] at harrived
        exact (Function.update_of_ne hne _ _).trans hfull
    -- the other blocks have not moved
    have hothers : ∀ k b, k ≠ i → c.threads[k]? = some b → ∀ d f, b.last = some (d, f) →
        ∃ k n, Op.arrive k n d f ∈ b.done ∧ m'.ctr k = arrivals programs k := by
      intro j b₂ _ hj d f hl
      obtain ⟨k, n, hop, hfull⟩ := hK j b₂ hj d f hl
      have hk := arrivals_pos (program_mem hr (List.mem_of_getElem? hj))
        (List.mem_append_left _ hop)
      exact ⟨k, n, hop, hkeep k hk hfull⟩
    refine ⟨?_, hothers⟩
    cases act_does hact with
    | settle => exact fun _ _ h => by cases h
    | put => exact fun _ _ h => by cases h
    | zero => exact fun _ _ h => by cases h
    | @arrive done rest k n d f =>
      intro d' f' hl
      dsimp only at hl ⊢
      -- only the arrival that fills the counter owes the completion
      split at hl
      · next hn =>
        cases hl
        have hval := hs.arrive_val _ hprog k n d f (List.mem_append_right _ List.mem_cons_self)
        refine ⟨k, n, List.mem_append_right _ List.mem_cons_self, ?_⟩
        rw [Function.update_self, hn, hval.1]
      · cases hl

/-- The block owes the store of `d`. -/
def Block.owes (d : ι) (b : Block ι κ V) : ℕ := if b.last.any fun cf => cf.1 = d then 1 else 0

/-- **One completion**: the cell of a counter is stored, or owed by one block, as soon
as the counter is full, and not before. -/
theorem completion_reachable (hs : Sound cells programs target val)
    (h₀ : ∀ k, 0 < arrivals programs k → ctr k = 0) {k : κ} (hk : 0 < arrivals programs k)
    (h : (launch cells ctr programs).Reachable c) :
    c.shared.count (target k) + (c.threads.map (Block.owes (target k))).sum =
      if c.shared.ctr k = arrivals programs k then 1 else 0 := by
  refine h.invariant_along (I := fun c : Interleave (Memory ι κ V) (Block ι κ V) =>
    c.shared.count (target k) + (c.threads.map (Block.owes (target k))).sum =
      if c.shared.ctr k = arrivals programs k then 1 else 0) ?_ ?_
  -- at the start nothing is stored and nothing owed
  · rintro c rfl
    have hne : ctr k ≠ arrivals programs k := by
      rw [h₀ k hk]
      omega
    simp [Memory.count, Block.owes, Function.comp_def, hne]
  · rintro c ⟨i, x⟩ c' hr hI hstep
    obtain ⟨b, m', b', hi, hact, rfl⟩ := Interleave.turn_ok hstep
    have hmem := List.mem_of_getElem? hi
    have hprog := program_mem hr hmem
    have hset := Interleave.sum_map_set (i := i) (Block.owes (target k)) b' hi
    change m'.count (target k) + ((c.threads.set i b').map (Block.owes (target k))).sum =
      if m'.ctr k = arrivals programs k then 1 else 0
    change c.shared.count (target k) + (c.threads.map (Block.owes (target k))).sum =
      if c.shared.ctr k = arrivals programs k then 1 else 0 at hI
    cases act_does hact with
    | @settle done todo d f =>
      -- the store moves from owed to done
      rw [count_store]
      have howes : Block.owes (target k) (⟨done, todo, some (d, f)⟩ : Block ι κ V) =
          if d = target k then 1 else 0 := by simp [Block.owes]
      have hpaid : Block.owes (target k) (⟨done, todo, none⟩ : Block ι κ V) = 0 := rfl
      have hctr : (c.shared.store d f).ctr k = c.shared.ctr k := rfl
      rw [hctr, ← hI]
      omega
    | @put done rest d f =>
      -- a plain store goes to another cell
      have hne : d ≠ target k := by
        rintro rfl
        have := stores_pos hprog (List.mem_append_right _ List.mem_cons_self)
        have := hs.target_not_put k hk
        omega
      have hctr : (c.shared.store d f).ctr k = c.shared.ctr k := rfl
      have hsame : Block.owes (target k) (⟨done ++ [.put d f], rest, none⟩ : Block ι κ V) =
          Block.owes (target k) (⟨done, .put d f :: rest, none⟩ : Block ι κ V) := rfl
      rw [count_store, if_neg hne, hctr, ← hI]
      omega
    | @zero done rest k' =>
      -- a reset is for a counter that is not used
      have hz := hs.zero_unused _ hprog k' (List.mem_append_right _ List.mem_cons_self)
      have hne : k ≠ k' := by
        rintro rfl
        omega
      have hctr : Function.update c.shared.ctr k' 0 k = c.shared.ctr k :=
        Function.update_of_ne hne _ _
      have hsame : Block.owes (target k) (⟨done ++ [.zero k'], rest, none⟩ : Block ι κ V) =
          Block.owes (target k) (⟨done, .zero k' :: rest, none⟩ : Block ι κ V) := rfl
      change c.shared.count (target k) + _ =
        if Function.update c.shared.ctr k' 0 k = _ then 1 else 0
      rw [hctr, ← hI]
      omega
    | @arrive done rest k' n d f =>
      -- the arrival: it owes the completion exactly when it fills the counter
      obtain ⟨hn, hd, -⟩ := hs.arrive_val _ hprog k' n d f
        (List.mem_append_right _ List.mem_cons_self)
      have hk' := arrivals_pos hprog (List.mem_append_right _ List.mem_cons_self)
      have hlt := ctr_lt hs (h₀ k' hk') hk' hr hmem
        (List.countP_pos_iff.mpr ⟨_, List.mem_cons_self, by simp [Op.arrivesAt]⟩)
      have hfree : Block.owes (target k)
          (⟨done, .arrive k' n d f :: rest, none⟩ : Block ι κ V) = 0 := rfl
      change c.shared.count (target k) + _ =
        if Function.update c.shared.ctr k' (c.shared.ctr k' + 1) k = _ then 1 else 0
      by_cases hkk : k' = k
      -- the counter in question
      · subst hkk
        rw [if_neg (by omega)] at hI
        rw [Function.update_self]
        by_cases hfull : c.shared.ctr k' + 1 = arrivals programs k'
        · have howes : Block.owes (target k') (⟨done ++ [.arrive k' n d f], rest,
              if c.shared.ctr k' + 1 = n then some (d, f) else none⟩ : Block ι κ V) = 1 := by
            simp [Block.owes, hn, hfull, hd]
          rw [howes, hfree] at hset
          rw [if_pos hfull]
          omega
        · have howes : Block.owes (target k') (⟨done ++ [.arrive k' n d f], rest,
              if c.shared.ctr k' + 1 = n then some (d, f) else none⟩ : Block ι κ V) = 0 := by
            simp [Block.owes, hn, hfull]
          rw [howes, hfree] at hset
          rw [if_neg hfull]
          omega
      -- another counter, with another target
      · have hne : d ≠ target k := by
          rw [hd]
          exact fun h => hkk (hs.target_inj k' k hk' hk h)
        have howes : Block.owes (target k) (⟨done ++ [.arrive k' n d f], rest,
            if c.shared.ctr k' + 1 = n then some (d, f) else none⟩ : Block ι κ V) = 0 := by
          by_cases hfull : c.shared.ctr k' + 1 = n
          · simp [Block.owes, hfull, hne]
          · simp [Block.owes, hfull]
        rw [howes, hfree] at hset
        rw [Function.update_of_ne (Ne.symm hkk), ← hI]
        omega

/-- **Covered cells are stored first**: when a counter is full, every cell that is
stored before an arrival at it is in the log. -/
theorem covered_stored (hs : Sound cells programs target val)
    (h₀ : ∀ k, 0 < arrivals programs k → ctr k = 0) {k : κ} (hk : 0 < arrivals programs k)
    (h : (launch cells ctr programs).Reachable c)
    (hfull : c.shared.ctr k = arrivals programs k) {d : ι} (hd : Covered programs k d) :
    0 < c.shared.count d := by
  obtain ⟨p, hp, pre, post, n, d', f, g, rfl, hput⟩ := hd
  have hstores : 0 < stores programs d := stores_pos hp (List.mem_append_left _ hput)
  -- the cell is stored to by plain operations only
  have hplain : ∀ k', 0 < arrivals programs k' → target k' ≠ d := by
    rintro k' hk' rfl
    have := hs.target_not_put k' hk'
    omega
  -- the block with this program is past the arrival, hence past the store
  obtain ⟨b, hb, hbp⟩ : ∃ b ∈ c.threads, b.program = pre ++ .arrive k n d' f :: post := by
    have hmem : pre ++ .arrive k n d' f :: post ∈ c.threads.map Block.program := by
      rw [programs_reachable h]
      exact hp
    exact List.mem_map.mp hmem
  have hnone := arrived_of_full hs (h₀ k hk) hk h hfull hb
  have hdone : pre <+: b.done := by
    have hsplit : b.done ++ b.todo = pre ++ .arrive k n d' f :: post := hbp
    -- otherwise the arrival would still lie before the block
    rcases List.append_eq_append_iff.mp hsplit with ⟨t, hpre, htodo⟩ | ⟨t, hdone, -⟩
    · rw [List.countP_eq_zero] at hnone
      have hmem : Op.arrive k n d' f ∈ b.todo := by
        rw [htodo]
        exact List.mem_append_right _ List.mem_cons_self
      exact absurd (by simp [Op.arrivesAt]) (hnone _ hmem)
    · exact ⟨t, hdone.symm⟩
  have hone : 0 < b.done.countP (Op.puts d) :=
    List.countP_pos_iff.mpr ⟨_, hdone.subset hput, by simp [Op.puts]⟩
  rw [count_put hs hplain h]
  -- one of the blocks has stored to the cell
  obtain ⟨i, hi⟩ := List.mem_iff_getElem?.mp hb
  exact Nat.lt_of_lt_of_le hone
    (Interleave.le_sum_of_getElem? (fun b => b.done.countP (Op.puts d)) hi)

/-! ### What is stored -/

/-- **A turn stores at most once**, and says who stored: a plain store of a program, or
the last arrival at a counter that is full. -/
theorem turn_stores (hs : Sound cells programs target val)
    (h₀ : ∀ k, 0 < arrivals programs k → ctr k = 0) {l : ℕ × Unit}
    {c' : Interleave (Memory ι κ V) (Block ι κ V)} (h : (launch cells ctr programs).Reachable c)
    (hstep : (launch cells ctr programs).step c l c') :
    (c'.shared.cells = c.shared.cells ∧ c'.shared.log = c.shared.log) ∨
    ∃ d f, c'.shared.cells = Function.update c.shared.cells d (f c.shared.cells) ∧
      c'.shared.log = c.shared.log ++ [(d, f c.shared.cells)] ∧
      ((∃ p ∈ programs, Op.put d f ∈ p) ∨
        ∃ p ∈ programs, ∃ k n, Op.arrive k n d f ∈ p ∧
          c.shared.ctr k = arrivals programs k) := by
  obtain ⟨i, x⟩ := l
  obtain ⟨b, m', b', hi, hact, rfl⟩ := Interleave.turn_ok hstep
  have hmem := List.mem_of_getElem? hi
  have hprog := program_mem h hmem
  -- a store happens when a completion is paid or in a plain operation
  cases act_does hact with
  | @settle done todo d f =>
    obtain ⟨k, n, hop, hfull⟩ := owed_reachable hs h₀ h hmem rfl
    refine .inr ⟨d, f, rfl, rfl, .inr ⟨_, hprog, k, n, ?_, hfull⟩⟩
    exact List.mem_append_left _ hop
  | @put done rest d f =>
    refine .inr ⟨d, f, rfl, rfl, .inl ⟨_, hprog, ?_⟩⟩
    exact List.mem_append_right _ List.mem_cons_self
  | zero => exact .inl ⟨rfl, rfl⟩
  | arrive => exact .inl ⟨rfl, rfl⟩

/-- The memory holds what solves the equations: in the log, in every stored cell, and in
every cell that the launch does not write. -/
structure Solved (cells : ι → V) (programs : List (List (Op ι κ V))) (target : κ → ι)
    (val : ι → V) (m : Memory ι κ V) : Prop where
  log : ∀ e ∈ m.log, e.2 = val e.1
  unwritten : ∀ d, ¬ Written programs target d → m.cells d = cells d
  stored : ∀ d, 0 < m.count d → m.cells d = val d

/-- **Every stored value** is the solution's. -/
theorem solved_reachable (hs : Sound cells programs target val)
    (h₀ : ∀ k, 0 < arrivals programs k → ctr k = 0)
    (h : (launch cells ctr programs).Reachable c) :
    Solved cells programs target val c.shared := by
  refine h.invariant_along (I := fun c : Interleave (Memory ι κ V) (Block ι κ V) =>
    Solved cells programs target val c.shared) ?_ ?_
  · rintro c rfl
    exact ⟨fun e he => (List.not_mem_nil he).elim, fun _ _ => rfl,
      fun d hd => absurd hd (Nat.lt_irrefl 0)⟩
  · intro c l c' hr hI hstep
    obtain ⟨hcells, hlog⟩ | ⟨d, f, hcells, hlog, hwho⟩ := turn_stores hs h₀ hr hstep
    -- without a store nothing has changed
    · refine ⟨?_, ?_, fun d hd => ?_⟩
      · rw [hlog]
        exact hI.log
      · rw [hcells]
        exact hI.unwritten
      · rw [hcells]
        refine hI.stored d ?_
        rwa [Memory.count, hlog] at hd
    · -- the value that is stored now
      have hval : f c.shared.cells = val d ∧ Written programs target d := by
        obtain ⟨p, hp, hop⟩ | ⟨p, hp, k, n, hop, hfull⟩ := hwho
        · exact ⟨hs.put_val p hp d f hop _ hI.unwritten, .inl (stores_pos hp hop)⟩
        · obtain ⟨-, rfl, hread⟩ := hs.arrive_val p hp k n d f hop
          have hk := arrivals_pos hp hop
          refine ⟨hread _ hI.unwritten fun d' hd' => ?_, .inr ⟨k, hk, rfl⟩⟩
          exact hI.stored d' (covered_stored hs h₀ hk hr hfull hd')
      obtain ⟨hval, hwritten⟩ := hval
      refine ⟨fun e he => ?_, fun d' hd' => ?_, fun d' hd' => ?_⟩
      · rw [hlog, List.mem_append, List.mem_singleton] at he
        obtain he | rfl := he
        · exact hI.log e he
        · exact hval
      -- no cell outside the written ones is stored to
      · have hne : d' ≠ d := by
          rintro rfl
          exact hd' hwritten
        rw [hcells, Function.update_of_ne hne]
        exact hI.unwritten d' hd'
      · rw [hcells]
        by_cases hd : d' = d
        · rw [hd, Function.update_self, hval]
        · rw [Function.update_of_ne hd]
          refine hI.stored d' ?_
          rw [Memory.count, hlog, count_append, if_neg (Ne.symm hd)] at hd'
          exact hd'

/-- **Order**: whatever is stored before an arrival at a counter is in the log before
the counter's cell. -/
theorem covered_before (hs : Sound cells programs target val)
    (h₀ : ∀ k, 0 < arrivals programs k → ctr k = 0) {k : κ} (hk : 0 < arrivals programs k)
    (h : (launch cells ctr programs).Reachable c) {before after : List (ι × V)} {v : V}
    (hlog : c.shared.log = before ++ (target k, v) :: after) {d : ι} (hd : Covered programs k d) :
    d ∈ before.map Prod.fst := by
  have hinv := h.invariant_along (I := fun c : Interleave (Memory ι κ V) (Block ι κ V) =>
    ∀ before after v, c.shared.log = before ++ (target k, v) :: after →
      d ∈ before.map Prod.fst) ?_ ?_
  · exact hinv before after v hlog
  · rintro c rfl before after v hlog
    exact absurd hlog (by simp)
  · intro c l c' hr hI hstep before after v hlog
    obtain ⟨-, hsame⟩ | ⟨d', f, -, hnew, hwho⟩ := turn_stores hs h₀ hr hstep
    -- the log is as before
    · exact hI before after v (hsame.symm.trans hlog)
    · rw [hnew] at hlog
      -- the counter's cell is an old entry or the one that is stored now
      rcases List.eq_nil_or_concat after with rfl | ⟨after', e, rfl⟩
      · obtain ⟨rfl, hlast⟩ := List.append_inj' hlog rfl
        obtain ⟨rfl, -⟩ := Prod.mk.inj (List.cons.inj hlast).1
        -- a plain store does not go to the target
        obtain ⟨p, hp, hop⟩ | ⟨p, hp, k', n, hop, hfull⟩ := hwho
        · have := stores_pos hp hop
          have := hs.target_not_put k hk
          omega
        -- the counter was full, so every covered cell is in the log
        · have hk' := arrivals_pos hp hop
          obtain ⟨-, htarget, -⟩ := hs.arrive_val p hp k' n _ f hop
          obtain rfl := hs.target_inj k k' hk hk' htarget
          have hcount := covered_stored hs h₀ hk hr hfull hd
          obtain ⟨e, he, heq⟩ := List.countP_pos_iff.mp hcount
          exact List.mem_map.mpr ⟨e, he, of_decide_eq_true heq⟩
      · refine hI before after' v ?_
        rw [List.concat_eq_append, ← List.cons_append, ← List.append_assoc] at hlog
        exact (List.append_inj' hlog rfl).1

/-! ### Launches that ran to their end -/

/-- All blocks ran to their end. -/
def Complete (c : Interleave (Memory ι κ V) (Block ι κ V)) : Prop := ∀ b ∈ c.threads, b.Finished

theorem done_of_complete (h : (launch cells ctr programs).Reachable c) (hc : Complete c)
    (q : Op ι κ V → Bool) :
    (c.threads.map fun b => b.done.countP q).sum = (programs.map (List.countP q)).sum := by
  have hzero : (c.threads.map fun b => b.todo.countP q).sum = 0 := by
    refine Interleave.sum_map_eq_zero fun i b hi => ?_
    rw [(hc b (List.mem_of_getElem? hi)).1, List.countP_nil]
  have htotal := total_eq h q
  omega

/-- **Exactly once**: a finished launch stored the cell of every counter in use once,
and every other cell as often as the programs say. -/
theorem once_of_complete (hs : Sound cells programs target val)
    (h₀ : ∀ k, 0 < arrivals programs k → ctr k = 0)
    (h : (launch cells ctr programs).Reachable c) (hc : Complete c) :
    (∀ k, 0 < arrivals programs k → c.shared.count (target k) = 1) ∧
      ∀ d, (∀ k, 0 < arrivals programs k → target k ≠ d) →
        c.shared.count d = stores programs d := by
  refine ⟨fun k hk => ?_, fun d hd => ?_⟩
  -- at the end every arrival is done, so the counter is full
  · have hfull : c.shared.ctr k = arrivals programs k := by
      rw [ctr_reachable hs (h₀ k hk) hk h]
      exact done_of_complete h hc _
    -- and no completion is owed any more
    have hpaid : (c.threads.map (Block.owes (target k))).sum = 0 := by
      refine Interleave.sum_map_eq_zero fun i b hi => ?_
      rw [Block.owes, (hc b (List.mem_of_getElem? hi)).2]
      rfl
    have hcompletion := completion_reachable hs h₀ hk h
    rw [if_pos hfull] at hcompletion
    omega
  · rw [count_put hs hd h]
    exact done_of_complete h hc _

/-- A cell that the launch writes is stored once. -/
theorem count_of_written (hs : Sound cells programs target val)
    (h₀ : ∀ k, 0 < arrivals programs k → ctr k = 0)
    (h : (launch cells ctr programs).Reachable c) (hc : Complete c) {d : ι}
    (hd : Written programs target d) : c.shared.count d = 1 := by
  obtain ⟨htargets, hplain⟩ := once_of_complete hs h₀ h hc
  obtain hstores | ⟨k, hk, rfl⟩ := hd
  · have honce := hs.put_once d
    rw [hplain d]
    · omega
    · rintro k hk rfl
      have := hs.target_not_put k hk
      omega
  · exact htargets k hk

/-- A cell that the launch does not write is not stored. -/
theorem count_of_not_written (hs : Sound cells programs target val)
    (h₀ : ∀ k, 0 < arrivals programs k → ctr k = 0)
    (h : (launch cells ctr programs).Reachable c) (hc : Complete c) {d : ι}
    (hd : ¬ Written programs target d) : c.shared.count d = 0 := by
  have hplain := (once_of_complete hs h₀ h hc).2 d fun k hk htarget => hd (.inr ⟨k, hk, htarget⟩)
  rw [hplain]
  exact Nat.eq_zero_of_not_pos fun hpos => hd (.inl hpos)

/-- Before the end, the cell of a counter is stored at most once. -/
theorem count_target_le (hs : Sound cells programs target val)
    (h₀ : ∀ k, 0 < arrivals programs k → ctr k = 0) {k : κ} (hk : 0 < arrivals programs k)
    (h : (launch cells ctr programs).Reachable c) : c.shared.count (target k) ≤ 1 := by
  have hcompletion := completion_reachable hs h₀ hk h
  split at hcompletion
  · omega
  · omega

/-- **Reset**: a counter that nobody arrives at and that some program resets is zero at
the end. -/
theorem ctr_zeroed (h : (launch cells ctr programs).Reachable c) (hc : Complete c) {k : κ}
    (hk : arrivals programs k = 0) {p : List (Op ι κ V)} (hp : p ∈ programs)
    (hz : Op.zero k ∈ p) : c.shared.ctr k = 0 := by
  have hinv := h.invariant_along (I := fun c : Interleave (Memory ι κ V) (Block ι κ V) =>
    (∃ b ∈ c.threads, Op.zero k ∈ b.done) → c.shared.ctr k = 0) ?_ ?_
  -- a finished block has done its reset
  · refine hinv ?_
    have hmem : p ∈ c.threads.map Block.program := by
      rw [programs_reachable h]
      exact hp
    obtain ⟨b, hb, rfl⟩ := List.mem_map.mp hmem
    refine ⟨b, hb, ?_⟩
    rwa [Block.program, (hc b hb).1, List.append_nil] at hz
  · rintro c rfl ⟨b, hb, hz⟩
    obtain ⟨p, -, rfl⟩ := List.mem_map.mp hb
    exact (List.not_mem_nil hz).elim
  · rintro c ⟨i, x⟩ c' hr hI hstep ⟨b₂, hb₂, hz⟩
    obtain ⟨b, m', b', hi, hact, rfl⟩ := Interleave.turn_ok hstep
    have hmem := List.mem_of_getElem? hi
    have hprog := program_mem hr hmem
    change m'.ctr k = 0
    -- the block that has reset `k`: another one, the one that ran before, or just now
    have hsource : (∃ b ∈ c.threads, Op.zero k ∈ b.done) ∨ Op.zero k ∈ b'.done := by
      obtain hb₂ | rfl := List.mem_or_eq_of_mem_set hb₂
      · exact .inl ⟨b₂, hb₂, hz⟩
      · exact .inr hz
    cases act_does hact with
    | settle =>
      obtain hold | hown := hsource
      · exact hI hold
      · exact hI ⟨_, hmem, hown⟩
    | @put done rest d f =>
      obtain hold | hown := hsource
      · exact hI hold
      · exact hI ⟨_, hmem, by simpa using hown⟩
    | @zero done rest k' =>
      change Function.update c.shared.ctr k' 0 k = 0
      by_cases hk' : k = k'
      · rw [hk', Function.update_self]
      · rw [Function.update_of_ne hk']
        obtain hold | hown := hsource
        · exact hI hold
        · refine hI ⟨_, hmem, ?_⟩
          simpa [hk'] using hown
    | @arrive done rest k' n d f =>
      change Function.update c.shared.ctr k' (c.shared.ctr k' + 1) k = 0
      have hpos := arrivals_pos hprog (List.mem_append_right _ List.mem_cons_self)
      have hne : k ≠ k' := by
        rintro rfl
        omega
      rw [Function.update_of_ne hne]
      obtain hold | hown := hsource
      · exact hI hold
      · exact hI ⟨_, hmem, by simpa using hown⟩

/-- **Frame**: a counter that no program touches keeps its value. -/
theorem ctr_frame (h : (launch cells ctr programs).Reachable c) {k : κ}
    (hk : arrivals programs k = 0) (hz : ∀ p ∈ programs, Op.zero k ∉ p) :
    c.shared.ctr k = ctr k := by
  refine h.invariant_along (I := fun c : Interleave (Memory ι κ V) (Block ι κ V) =>
    c.shared.ctr k = ctr k) ?_ ?_
  · rintro c rfl
    rfl
  · rintro c ⟨i, x⟩ c' hr hI hstep
    obtain ⟨b, m', b', hi, hact, rfl⟩ := Interleave.turn_ok hstep
    -- whatever the step is, it leaves this counter alone
    have hprog := program_mem hr (List.mem_of_getElem? hi)
    cases act_does hact with
    | settle => exact hI
    | put => exact hI
    | @zero done rest k' =>
      have hne : k ≠ k' := by
        rintro rfl
        exact hz _ hprog (List.mem_append_right _ List.mem_cons_self)
      exact (Function.update_of_ne hne _ _).trans hI
    | @arrive done rest k' n d f =>
      have hpos := arrivals_pos hprog (List.mem_append_right _ List.mem_cons_self)
      have hne : k ≠ k' := by
        rintro rfl
        omega
      exact (Function.update_of_ne hne _ _).trans hI

/-- The sections a block has left: an arrival counts for two, as it may owe a store. -/
def Block.left (b : Block ι κ V) : ℕ := 2 * b.todo.length + if b.last.isSome then 1 else 0

theorem Does.left_lt {m m' : Memory ι κ V} {b b' : Block ι κ V} (h : Does m b m' b') :
    b'.left < b.left := by
  cases h with
  | settle => simp [Block.left]
  | put => simp [Block.left]
  | zero => simp [Block.left]
  | @arrive done rest k n d f =>
    have hone : ∀ o : Option (ι × ((ι → V) → V)), (if o.isSome then 1 else 0) ≤ 1 := by
      intro o
      split
      · exact Nat.le_refl 1
      · exact Nat.zero_le 1
    have := hone (if m.ctr k + 1 = n then some (d, f) else none)
    simp only [Block.left, List.length_cons]
    omega

/-- **No launch hangs**: while a block is not finished one can run, and every turn uses
up what is left. -/
theorem turn_left_lt {l : ℕ × Unit} {c' : Interleave (Memory ι κ V) (Block ι κ V)}
    (hstep : (launch cells ctr programs).step c l c') :
    (c'.threads.map Block.left).sum < (c.threads.map Block.left).sum := by
  obtain ⟨i, x⟩ := l
  obtain ⟨b, m', b', hi, hact, rfl⟩ := Interleave.turn_ok hstep
  have hset := Interleave.sum_map_set (i := i) Block.left b' hi
  have hlt := (act_does hact).left_lt
  change ((c.threads.set i b').map Block.left).sum < _
  omega

/-- **Every run can be completed.** -/
theorem exists_complete (h : (launch cells ctr programs).Reachable c) :
    ∃ c', (launch cells ctr programs).Reachable c' ∧ Complete c' := by
  induction hm : (c.threads.map Block.left).sum using Nat.strongRecOn generalizing c with
  | _ n ih =>
    by_cases hc : Complete c
    · exact ⟨c, h, hc⟩
    · -- a block that is not finished takes its turn
      obtain ⟨b, hb, hbf⟩ : ∃ b ∈ c.threads, ¬ b.Finished := by
        by_contra hall
        exact hc fun b hb => by_contra fun hbf => hall ⟨b, hb, hbf⟩
      obtain ⟨i, hi⟩ := List.mem_iff_getElem?.mp hb
      obtain ⟨r, hr⟩ := Option.isSome_iff_exists.mp (act_isSome (m := c.shared) hbf)
      obtain e | ⟨m', b'⟩ := r
      · exact e.elim
      · have hstep : (launch cells ctr programs).step c (i, ()) ⟨m', c.threads.set i b'⟩ := by
          change c.turn act i () = _
          simp only [Interleave.turn, hi, hr]
        exact ih _ (hm ▸ turn_left_lt hstep) (.step h trivial hstep) rfl

end Plan

end Dsv41Overlay.Completion
