import Dsv41Overlay.Lib.System
import Dsv41Overlay.Yoco.MaskEq

/-!
# A truncated prefill never reads an unwritten decoder slot

One request, from its prefix-cache hit through a chunked prefill into decode.
The system `prefillRun` takes two kinds of step: `chunk n` schedules the next
`n` prompt rows, `verify drafts accepted` runs a decode row with `drafts`
drafts after it and keeps `accepted` of them. Every step goes through
`build_keep_plan`, the kernel and the clamp (`stepRows`), and the stores of a
step happen before its reads.

The proof is one invariant, `Filled`: every position of the rectangle
`[N - KEEP, N)` and every decoded position below the next one has been stored.
`Filled.after_rows` is the step lemma: a step fills the positions it schedules.
A visible position always lies in the filled range, because the clamp keeps
prompt rows at or above `N - KEEP` and a decode window of `W` positions starting
at or after `N` cannot reach below it when `KEEP >= W`.

`attach_eq` connects these rows to `YocoPrefill.attach`: on every batch it hands
the decoder exactly the rows of the plan, also when it returns the stock
metadata.
-/

namespace Dsv41Overlay
namespace Yoco

open Batch

/-! ### `attach` runs the rows of the plan -/

section Attach

variable {window width keep : ℕ} {batch : Batch}

/-- A row of the stock step is the reference row without a bound. -/
theorem fullRow_eq {i t : ℕ} (hi : i < batch.length)
    (ht : t < (req batch i).numRows) (hlb : (req batch i).maskLower keep = 0) :
    fullRow window width batch (rowStart batch i + t)
      = maskRow window width keep (req batch i) t := by
  have hreq : (tokenToReq (queryStartLoc batch)).getD (rowStart batch i + t) 0 = i := by
    rw [List.getD_eq_getElem?_getD, queryStartLoc]
    have h := tokenToReq_getElem? (f := fun k => (req batch k).numRows) hi ht
    exact congrArg (·.getD 0) h
  have hpos : (positions batch).getD (rowStart batch i + t) 0 = (req batch i).pos t := by
    rw [List.getD_eq_getElem?_getD, positions_getElem? hi ht, Option.getD_some]
  have hslot : (slotMapping batch).getD (rowStart batch i + t) (-1)
      = (req batch i).blockTable.slot ((req batch i).pos t) := by
    rw [List.getD_eq_getElem?_getD, slotMapping_getElem? hi ht, Option.getD_some]
  -- the stock step delimits all rows of the request
  have hkpos : kernelPos (rowStart batch i) (rowStart batch (i + 1)) (req batch i).seqLen
      (rowStart batch i + t) = (req batch i).pos t := by
    unfold kernelPos BatchReq.pos
    rw [rowStart_succ]
    omega
  unfold fullRow maskRow
  simp only [hreq, hpos, hslot, BlockTable.slot_nonneg, decide_true, hlb, Nat.zero_le, if_true,
    Nat.max_zero]
  rw [queryStartLoc_getD (by omega), queryStartLoc_getD (by omega), kernelSwaRow_valid, hkpos]

/-- Without a prefill longer than `KEEP` no request is cut. -/
theorem rowPlan_of_plan_not_needed (h : (plan keep batch).needed = false) {i : ℕ}
    (hi : i < batch.length) : (req batch i).rowPlan keep = ⟨0, 0, false, false⟩ := by
  rw [plan_needed, List.any_eq_false] at h
  have hmem : req batch i ∈ batch := by
    rw [req, List.getD_eq_getElem?_getD, List.getElem?_eq_getElem hi]
    exact List.getElem_mem hi
  have := h _ hmem
  rw [Bool.and_eq_true, decide_eq_true_eq] at this
  exact rowPlan_of_not_needed this

/-- **`attach` hands the decoder the rows of the plan**, whichever way it goes. -/
theorem attach_eq (hW : 0 < window) (hw : window ≤ width) :
    attach window width keep batch = .ok ((List.range (plan keep batch).keepIdx.length).map
      (compactRow window width batch (plan keep batch))) := by
  have stock : (plan keep batch).needed = false →
      (List.range (positions batch).length).map (fullRow window width batch)
        = (List.range (plan keep batch).keepIdx.length).map
          (compactRow window width batch (plan keep batch)) := by
    intro hn
    -- nothing is cut, so compact and full rows are numbered alike
    have hkept : ∀ i < batch.length, (req batch i).numKept keep = (req batch i).numRows := by
      intro i hi
      rw [BatchReq.numKept, rowPlan_of_plan_not_needed hn hi]
      rfl
    have hstart : ∀ i ≤ batch.length, keptStart keep batch i = rowStart batch i :=
      fun i hi => prefixSum_congr fun k hk => hkept k (by omega)
    rw [length_positions, length_plan_keepIdx, hstart _ le_rfl]
    refine List.map_congr_left fun f hf => ?_
    obtain ⟨i, hi, t, ht, rfl⟩ := exists_full_segment
      (by rw [length_positions]; exact List.mem_range.mp hf)
    have hplan := rowPlan_of_plan_not_needed hn hi
    have hlb : (req batch i).maskLower keep = 0 := by rw [← BatchReq.rowPlan_lb, hplan]
    rw [fullRow_eq hi ht hlb]
    have := compactRow_kept hW hw hi (t := t) (by rw [hkept i hi]; exact ht)
      (show ((req batch i).rowPlan keep).placeholder = false by rw [hplan])
    rw [hstart i hi.le, hplan, Nat.zero_add] at this
    exact this.symm
  unfold attach
  dsimp only
  split
  · next hno =>
    -- no prefill at all: the stock step
    refine congrArg Except.ok (stock ?_)
    rw [plan_needed_eq_needEager, needEager, if_pos hno]
  · rw [buildKeepPlan_arrays]
    dsimp only
    split
    · rfl
    · next hn => exact congrArg Except.ok (stock (by simpa using hn))

end Attach

/-! ### The run of one request -/

/-- What `YocoPrefill.__init__` and the image's kernel fix: a window, index rows
wide enough for it, and `KEEP >= min_keep_tokens`. -/
structure Deployment where
  window : ℕ
  width : ℕ
  numSpeculativeTokens : ℕ
  keep : ℕ
  window_pos : 0 < window
  window_le_width : window ≤ width
  min_keep : minKeepTokens window numSpeculativeTokens ≤ keep

/-- One request: its prompt length and block table. -/
structure Prompt where
  prefillLen : ℕ
  blockTable : BlockTable

/-- The state between two steps: the next position to schedule and the positions
whose slot has been written by this prefill or by a decode step. -/
structure RunState where
  next : ℕ
  stored : List ℕ

/-- The steps of a request's life. -/
inductive RunLabel
  /-- A prefill chunk of `n` rows. -/
  | chunk (n : ℕ)
  /-- A decode row with `drafts` drafts, of which `accepted` are kept. -/
  | verify (drafts accepted : ℕ)

/-- The number of rows a step schedules. -/
def RunLabel.numRows : RunLabel → ℕ
  | .chunk n => n
  | .verify drafts _ => drafts + 1

/-- How far a step advances the request. -/
def RunLabel.advance : RunLabel → ℕ
  | .chunk n => n
  | .verify _ accepted => accepted + 1

section Run

variable (d : Deployment) (q : Prompt)

/-- The rows the decoder runs for one request with `numComputed` computed tokens
and `n` scheduled rows, each with its placeholder flag. -/
def stepRows (numComputed n : ℕ) (h : 0 < n) : List (Bool × DecoderRow) :=
  let batch : Batch := [.ofRunner numComputed q.prefillLen n q.blockTable h]
  match buildKeepPlan (arrays batch) d.keep with
  | .error _ => []
  | .ok plan => (List.range plan.keepIdx.length).map fun j =>
      (plan.placeholder.getD j false, compactRow d.window d.width batch plan j)

/-- The positions a step stores: those of its rows with a valid slot. -/
def storedBy (rows : List (Bool × DecoderRow)) : List ℕ :=
  rows.filterMap fun row => if 0 ≤ row.2.slot then some row.2.pos else none

/-- Which steps may be scheduled. A chunk stays inside the prompt; verify steps
start when the prefill is complete. -/
def RunLabel.enabled (s : RunState) : RunLabel → Prop
  | .chunk n => 0 < n ∧ s.next + n ≤ q.prefillLen
  | .verify drafts accepted =>
    q.prefillLen ≤ s.next ∧ accepted ≤ drafts ∧ drafts ≤ d.numSpeculativeTokens

instance (s : RunState) : (l : RunLabel) → Decidable (l.enabled d q s)
  | .chunk _ => inferInstanceAs (Decidable (_ ∧ _))
  | .verify _ _ => inferInstanceAs (Decidable (_ ∧ _ ∧ _))

/-- One step of the request. -/
inductive RunStep (s : RunState) (l : RunLabel) : RunState → Prop
  | mk (hl : l.enabled d q s) (h : 0 < l.numRows) :
    RunStep s l ⟨s.next + l.advance, s.stored ++ storedBy (stepRows d q s.next l.numRows h)⟩

/-- The life of one request after a prefix-cache hit of `hit` tokens. -/
def prefillRun (hit : ℕ) : System RunState RunLabel where
  init s := s = ⟨hit, []⟩
  step := RunStep d q

end Run

/-! ### The rows of one step -/

section Rows

variable {d : Deployment} {q : Prompt} {numComputed n : ℕ} {h : 0 < n}

/-- The request a step schedules. -/
abbrev stepReq (q : Prompt) (numComputed n : ℕ) (h : 0 < n) : BatchReq :=
  .ofRunner numComputed q.prefillLen n q.blockTable h

theorem stepReq_pos (t : ℕ) : (stepReq q numComputed n h).pos t = numComputed + t := by
  simp [BatchReq.ofRunner, BatchReq.pos]

/-- The rows of `stepRows` are those `attach` returns. -/
theorem stepRows_attach :
    attach d.window d.width d.keep [stepReq q numComputed n h]
      = .ok ((stepRows d q numComputed n h).map Prod.snd) := by
  rw [attach_eq d.window_pos d.window_le_width, stepRows, buildKeepPlan_arrays, List.map_map]
  rfl

/-- Membership in `stepRows`, read off the plan of the one-request batch. -/
theorem mem_stepRows {row : Bool × DecoderRow} (hr : row ∈ stepRows d q numComputed n h) :
    ∃ t < (stepReq q numComputed n h).numKept d.keep,
      row.1 = ((stepReq q numComputed n h).rowPlan d.keep).placeholder ∧
      row.2 = compactRow d.window d.width [stepReq q numComputed n h]
        (plan d.keep [stepReq q numComputed n h]) t := by
  rw [stepRows, buildKeepPlan_arrays] at hr
  simp only [List.mem_map, List.mem_range] at hr
  obtain ⟨j, hj, rfl⟩ := hr
  obtain ⟨i, hi, t, ht, rfl⟩ := exists_compact_segment hj
  obtain rfl : i = 0 := by simpa using hi
  obtain ⟨-, -, -, hph⟩ := compact_arrays hi ht
  have h0 : keptStart d.keep [stepReq q numComputed n h] 0 = 0 := rfl
  rw [h0, Nat.zero_add] at hph ⊢
  exact ⟨t, ht, hph, rfl⟩

/-- A row of a step that is not a placeholder is the reference row. -/
theorem compactRow_stepReq {t : ℕ} (ht : t < (stepReq q numComputed n h).numKept d.keep)
    (hph : ((stepReq q numComputed n h).rowPlan d.keep).placeholder = false) :
    compactRow d.window d.width [stepReq q numComputed n h]
        (plan d.keep [stepReq q numComputed n h]) t
      = maskRow d.window d.width d.keep (stepReq q numComputed n h)
          (((stepReq q numComputed n h).rowPlan d.keep).first + t) := by
  have hlen : 0 < [stepReq q numComputed n h].length := Nat.zero_lt_one
  have := compactRow_kept d.window_pos d.window_le_width hlen ht hph
  rwa [show keptStart d.keep [stepReq q numComputed n h] 0 = 0 from rfl, Nat.zero_add] at this

/-- A placeholder row of a step stores and sees nothing. -/
theorem stepRows_placeholder {row : Bool × DecoderRow} (hr : row ∈ stepRows d q numComputed n h)
    (hph : row.1 = true) : row.2.slot = -1 ∧ row.2.swa.visible = [] := by
  obtain ⟨t, ht, hflag, hrow⟩ := mem_stepRows hr
  have hlen : 0 < [stepReq q numComputed n h].length := Nat.zero_lt_one
  have hzero : keptStart d.keep [stepReq q numComputed n h] 0 + t = t := Nat.zero_add t
  rw [hrow, ← hzero]
  exact compactRow_placeholder hlen ht (hflag.symm.trans hph)

/-- The positions visible to a row of a step that is not a placeholder: its
window, raised to the request's lower bound. -/
theorem stepRows_visible {row : Bool × DecoderRow} (hr : row ∈ stepRows d q numComputed n h)
    (hph : row.1 = false) :
    numComputed ≤ row.2.pos ∧ row.2.pos < numComputed + n ∧
      row.2.swa.visible = (List.range'
        (max (row.2.pos - (d.window - 1)) ((stepReq q numComputed n h).maskLower d.keep))
        (row.2.pos + 1
          - max (row.2.pos - (d.window - 1)) ((stepReq q numComputed n h).maskLower d.keep))).map
        q.blockTable.slot := by
  obtain ⟨t, ht, hflag, hrow⟩ := mem_stepRows hr
  have hfirst := (stepReq q numComputed n h).first_lt d.keep
  have hW := d.window_pos
  have hw := d.window_le_width
  rw [hrow, compactRow_stepReq ht (hflag.symm.trans hph)]
  unfold maskRow
  dsimp only
  have hn : (stepReq q numComputed n h).numRows = n := rfl
  rw [stepReq_pos, windowRow_visible (by omega)]
  unfold BatchReq.numKept at ht
  refine ⟨by omega, by omega, rfl⟩

/-- A step stores every position it schedules at or above the lower bound. -/
theorem mem_storedBy {p : ℕ} (h₁ : numComputed ≤ p) (h₂ : p < numComputed + n)
    (hlb : (stepReq q numComputed n h).maskLower d.keep ≤ p) :
    p ∈ storedBy (stepRows d q numComputed n h) := by
  obtain ⟨t, rfl⟩ := Nat.exists_eq_add_of_le h₁
  -- a placeholder means that every scheduled row lies below the bound
  have hph : ((stepReq q numComputed n h).rowPlan d.keep).placeholder = false := by
    by_contra hne
    have := BatchReq.pos_lt_of_placeholder (Bool.not_eq_false _ ▸ hne)
      (show t < (stepReq q numComputed n h).numRows from by change t < n; omega)
    rw [stepReq_pos] at this
    omega
  -- a row before the cut lies below the bound
  have hcut : ((stepReq q numComputed n h).rowPlan d.keep).first ≤ t := by
    by_contra hlt
    have := BatchReq.pos_lt_maskLower (Nat.lt_of_not_le hlt)
    rw [stepReq_pos] at this
    omega
  obtain ⟨u, rfl⟩ := Nat.exists_eq_add_of_le hcut
  have hn : (stepReq q numComputed n h).numRows = n := rfl
  have hu : u < (stepReq q numComputed n h).numKept d.keep := by
    unfold BatchReq.numKept
    omega
  have hlen : u < (plan d.keep [stepReq q numComputed n h]).keepIdx.length := by
    rw [length_plan_keepIdx, List.length_singleton, keptStart_succ]
    change u < 0 + _
    rw [Nat.zero_add]
    exact hu
  rw [storedBy, stepRows, buildKeepPlan_arrays, List.mem_filterMap]
  refine ⟨_, List.mem_map_of_mem (List.mem_range.mpr hlen), ?_⟩
  dsimp only
  rw [compactRow_stepReq hu hph]
  unfold maskRow
  dsimp only
  rw [stepReq_pos, if_pos hlb, if_pos (BlockTable.slot_nonneg _ _)]

end Rows

/-! ### The invariant -/

/-- Every position of the rectangle and every decoded position below `upTo` has
been stored. -/
def Filled (d : Deployment) (q : Prompt) (stored : List ℕ) (upTo : ℕ) : Prop :=
  ∀ p, q.prefillLen - d.keep ≤ p → p < upTo → p ∈ stored

section Invariant

variable {d : Deployment} {q : Prompt} {stored : List ℕ} {numComputed n : ℕ} {h : 0 < n}

/-- The lower bound of a scheduled request never exceeds the rectangle's start. -/
theorem maskLower_stepReq_le :
    (stepReq q numComputed n h).maskLower d.keep ≤ q.prefillLen - d.keep := by
  unfold BatchReq.maskLower
  split
  · exact le_rfl
  · exact Nat.zero_le _

/-- While the request is prefilling, its lower bound is the rectangle's start. -/
theorem maskLower_stepReq_of_prefilling (hp : numComputed < q.prefillLen) :
    (stepReq q numComputed n h).maskLower d.keep = q.prefillLen - d.keep := by
  have hflag : (stepReq q numComputed n h).isPrefilling = true := by
    simp [BatchReq.ofRunner, hp]
  unfold BatchReq.maskLower
  rw [hflag, Bool.true_and]
  split
  · rfl
  · next hk =>
    rw [decide_eq_true_eq] at hk
    change 0 = q.prefillLen - d.keep
    change ¬ d.keep < q.prefillLen at hk
    omega

/-- **The step lemma.** A step fills the positions it schedules. -/
theorem Filled.after_rows (hf : Filled d q stored numComputed) :
    Filled d q (stored ++ storedBy (stepRows d q numComputed n h)) (numComputed + n) := by
  intro p hlb hlt
  rw [List.mem_append]
  -- what was filled stays stored, the rest is scheduled now
  by_cases hp : p < numComputed
  · exact Or.inl (hf p hlb hp)
  · exact Or.inr (mem_storedBy (by omega) hlt (maskLower_stepReq_le.trans hlb))

/-- The invariant of a run: the hit lies at or below the next position and the
rectangle is filled up to it. -/
structure RunInv (d : Deployment) (q : Prompt) (hit : ℕ) (s : RunState) : Prop where
  hit_le : hit ≤ s.next
  filled : Filled d q s.stored s.next

/-- **Every reachable state is filled.** The hit cap leaves the whole rectangle
to be recomputed, so nothing needs to be filled initially. -/
theorem RunInv.of_reachable {hit : ℕ} (hhit : hit ≤ maxCacheHitLength q.prefillLen d.keep)
    {s : RunState} (hs : (prefillRun d q hit).Reachable s) : RunInv d q hit s := by
  refine System.Reachable.invariant (I := RunInv d q hit) ?_ ?_ hs
  · rintro s rfl
    refine ⟨le_rfl, fun p hlb hlt => ?_⟩
    dsimp only at hlt
    unfold maxCacheHitLength at hhit
    omega
  · rintro s l _ hI ⟨hl, hn⟩
    -- a step schedules rejected drafts too, so it stores beyond the next position
    have hadv : l.advance ≤ l.numRows := by
      cases l with
      | chunk n => exact le_rfl
      | verify drafts accepted => exact Nat.succ_le_succ hl.2.1
    refine ⟨hI.hit_le.trans (Nat.le_add_right _ _), fun p hlb hlt => ?_⟩
    exact hI.filled.after_rows p hlb (by dsimp only at hlt; omega)

end Invariant

/-! ### The reads of a run -/

/-- What the rows of a step read. `lo` is the lowest position a row sees. -/
structure ReadsStored (d : Deployment) (q : Prompt) (hit : ℕ) (s : RunState) (l : RunLabel)
    (h : 0 < l.numRows) (stored : List ℕ) : Prop where
  /-- A placeholder row sees no position and stores nothing. -/
  placeholder : ∀ row ∈ stepRows d q s.next l.numRows h, row.1 = true →
    row.2.swa.visible = [] ∧ row.2.slot = -1
  /-- A prompt row only sees positions this prefill has stored, none below the
  hit. -/
  prompt : s.next < q.prefillLen → ∀ row ∈ stepRows d q s.next l.numRows h, row.1 = false →
    ∃ lo, row.2.swa.visible = (List.range' lo (row.2.pos + 1 - lo)).map q.blockTable.slot ∧
      ∀ p, lo ≤ p → p ≤ row.2.pos → p ∈ stored ∧ hit ≤ p
  /-- A decode or verify row at position `n` sees exactly its window
  `[max(n - W + 1, 0), n]`, all of it stored by this prefill or by decode. -/
  decode : q.prefillLen ≤ s.next → ∀ row ∈ stepRows d q s.next l.numRows h,
    row.1 = false ∧ row.2.swa.visible = (List.range' (row.2.pos - (d.window - 1))
      (row.2.pos + 1 - (row.2.pos - (d.window - 1)))).map q.blockTable.slot ∧
      ∀ p, row.2.pos - (d.window - 1) ≤ p → p ≤ row.2.pos → p ∈ stored

/-- **No step reads an unwritten slot.** In every state a run reaches, for every
step scheduled there, the rows of the step read only what this prefill, or a
decode step, has stored by the end of the step's stores. -/
theorem prefill_reads_stored (d : Deployment) (q : Prompt) (hit : ℕ)
    (hhit : hit ≤ maxCacheHitLength q.prefillLen d.keep) (s s' : RunState) (l : RunLabel)
    (hs : (prefillRun d q hit).Reachable s) (hstep : (prefillRun d q hit).step s l s') :
    ∃ h : 0 < l.numRows, ReadsStored d q hit s l h s'.stored := by
  obtain ⟨hl, hn⟩ := hstep
  refine ⟨hn, ?_⟩
  have hI := RunInv.of_reachable hhit hs
  have hfill := hI.filled.after_rows (h := hn)
  constructor
  case placeholder =>
    intro row hr hph
    exact (stepRows_placeholder hr hph).symm
  case prompt =>
    intro hp row hr hph
    obtain ⟨hlo, hhi, hvis⟩ := stepRows_visible hr hph
    refine ⟨_, hvis, fun p hp₁ hp₂ => ?_⟩
    rw [maskLower_stepReq_of_prefilling hp] at hp₁
    -- the clamp has raised the window to the rectangle
    have hrect : q.prefillLen - d.keep ≤ p := (le_max_right _ _).trans hp₁
    refine ⟨hfill p hrect (by omega), ?_⟩
    unfold maxCacheHitLength at hhit
    omega
  case decode =>
    intro hp row hr
    -- past the prompt nothing is clamped
    have hlower : (stepReq q s.next l.numRows hn).maskLower d.keep = 0 := by
      simp [BatchReq.maskLower, BatchReq.ofRunner, Nat.min_eq_right hp]
    have hph : row.1 = false := by
      obtain ⟨t, ht, hflag, -⟩ := mem_stepRows hr
      rw [hflag, BatchReq.rowPlan, rowPlan_of_not_needed]
      simp [BatchReq.ofRunner, Nat.min_eq_right hp]
    obtain ⟨hlo, hhi, hvis⟩ := stepRows_visible hr hph
    rw [hlower, Nat.max_zero] at hvis
    refine ⟨hph, hvis, fun p hp₁ hp₂ => hfill p ?_ (by omega)⟩
    -- the window of a position past the prompt cannot reach below the rectangle
    have hkeep := d.min_keep
    unfold minKeepTokens at hkeep
    omega

/-- A window of `3` with `KEEP = 6`. -/
def smallDeployment : Deployment :=
  ⟨3, 4, 2, 6, Nat.add_pos_left Nat.two_pos 1, by decide, by decide⟩

/-- A prompt of `20` tokens in blocks of `4`. -/
def smallPrompt : Prompt := ⟨20, ⟨id, 4⟩⟩

/-- The reads of the second chunk of a run, after a first chunk of `3` rows. -/
theorem prefill_reads_stored_second_chunk :
    ∃ h : 0 < (RunLabel.chunk 17).numRows,
      ReadsStored smallDeployment smallPrompt 0
        ⟨3, storedBy (stepRows smallDeployment smallPrompt 0 3 (by decide))⟩ (.chunk 17) h
        (storedBy (stepRows smallDeployment smallPrompt 0 3 (by decide))
          ++ storedBy (stepRows smallDeployment smallPrompt 3 17 (by decide))) := by
  have hfirst : (prefillRun smallDeployment smallPrompt 0).Reachable
      ⟨3, [] ++ storedBy (stepRows smallDeployment smallPrompt 0 3 (by decide))⟩ :=
    .step (l := .chunk 3) (.init rfl) trivial (.mk (by decide) (by decide))
  rw [List.nil_append] at hfirst
  have hsecond : (prefillRun smallDeployment smallPrompt 0).step
      ⟨3, storedBy (stepRows smallDeployment smallPrompt 0 3 (by decide))⟩ (.chunk 17)
      ⟨20, storedBy (stepRows smallDeployment smallPrompt 0 3 (by decide))
        ++ storedBy (stepRows smallDeployment smallPrompt 3 17 (by decide))⟩ :=
    .mk (by decide) (by decide)
  exact prefill_reads_stored smallDeployment smallPrompt 0 (by decide) _ _ (.chunk 17)
    hfirst hsecond

end Yoco
end Dsv41Overlay
