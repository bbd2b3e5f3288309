import Mathlib.Data.Nat.Find
import Dsv41Overlay.RowStore.Store

/-!
# Pinning the scales, read by read

`pinScales` says which scales are pinned when the reads have the given outcomes. Here is the
code below it: every `pread` with what it returned, interruptions among them, the staging
buffer that keeps its bytes from read to read, and a log of the copies. The log is what
bounds are stated about, since a list cannot be written past its end. Offsets are natural
numbers: those of the owned scales lie inside the file (`scales_in_file`).

A run that ends is a run of `pinScales` (`pinScalesRun_refines`), so that what is pinned is
the file. A run need not end: the code repeats an interrupted read, as often as the kernel
interrupts it.
-/

namespace Dsv41Overlay
namespace RowStore

/-- What a `pread` returned: `EINTR`, another error, or the bytes the kernel is willing to
give (none at the end of the file). -/
inductive ReadResult
  | eintr
  | error
  | bytes (n : ℕ)
deriving Repr, DecidableEq

/-- Where a `memcpy` reads from. -/
inductive MemcpySource
  | resident
  | staging
deriving Repr, DecidableEq

/-- A `memcpy` of `pin_scales`: `len` bytes from `src` on, to `out + dst`. -/
structure Memcpy where
  source : MemcpySource
  dst : ℕ
  src : ℕ
  len : ℕ
deriving Repr, DecidableEq

/-- The variables of `pin_scales` in its loop, and the copies made so far. -/
structure PinFrame where
  offset : ℕ
  out : List UInt8
  buffer : ℕ → UInt8
  copies : List Memcpy

/-- A `pread` into the staging buffer: the bytes after those read stay. -/
def store (buffer : ℕ → UInt8) (page : List UInt8) (i : ℕ) : UInt8 := page[i]?.getD (buffer i)

/-- The bytes of the staging buffer that a `memcpy` takes. -/
def load (buffer : ℕ → UInt8) (src len : ℕ) : List UInt8 :=
  (List.range len).map fun i => buffer (src + i)

/-- A read of the bytes `page` and what follows it: the copy, if its window is not empty, and
the next offset. -/
def PinFrame.advance (start stop : ℕ) (p : PinFrame) (page : List UInt8) : PinFrame :=
  let buffer := store p.buffer page
  let lo := max p.offset start
  let hi := min (p.offset + page.length) stop
  if lo < hi then
    { offset := p.offset + page.length
      out := overwrite p.out (lo - start) (load buffer (lo - p.offset) (hi - lo))
      buffer := buffer
      copies := p.copies ++ [⟨.staging, lo - start, lo - p.offset, hi - lo⟩] }
  else { p with offset := p.offset + page.length, buffer := buffer }

/-- The loop of `pin_scales` for `fuel` of its turns, where the reads `k`, `k + 1`, … return
what `reads` says. The result tells whether everything was copied. -/
def pinReads (file : List UInt8) (start stop : ℕ) (reads : ℕ → ReadResult) :
    ℕ → ℕ → PinFrame → Option (Bool × PinFrame)
  | 0, _, _ => none
  | fuel + 1, k, p =>
    if p.offset < stop then
      let want := min span ((stop - p.offset + kPage - 1) / kPage * kPage)
      match reads k with
      -- `do ... while (got < 0 && errno == EINTR)`
      | .eintr => pinReads file start stop reads fuel (k + 1) p
      | .error => some (false, p)
      | .bytes n =>
        let page := slice file p.offset (min n want)
        if page.length = 0 then some (false, p)
        else pinReads file start stop reads fuel (k + 1) (p.advance start stop page)
    else some (true, p)

/-- What the system grants a run: the mapping, the staging buffer (with whatever bytes it
has) and what the reads return. -/
structure PinRun where
  mapped : Bool
  aligned : Bool
  staging : ℕ → UInt8
  reads : ℕ → ReadResult

/-- `pin_scales` for `fuel` turns of its loop: what it returns, the store it leaves and the
copies it made. -/
def pinScalesRun (s : Store) (o : PinRun) (fuel : ℕ) : Option (Bool × Store × List Memcpy) :=
  let count := s.rowHi - s.rowLo
  if count = 0 then some (false, s, []) else
  let bytes := count * kScaleBytes
  if ¬ o.mapped then some (false, s, []) else
  let out := List.replicate bytes 0
  let start := s.scaleOffset + s.rowLo * kScaleBytes
  let stop := start + bytes
  if s.resident then
    let out := overwrite out 0 (slice s.file start bytes)
    some (true, { s with scales := some out }, [⟨.resident, 0, start, bytes⟩])
  else if ¬ o.aligned then some (false, s, []) else
  (pinReads s.file start stop o.reads fuel 0
    { offset := start / kPage * kPage, out := out, buffer := o.staging, copies := [] }).map
    fun r => if r.1 then (true, { s with scales := some r.2.out }, r.2.copies)
      else (false, s, r.2.copies)

/-- `row_store_range`, its call of `pin_scales` for `fuel` turns. -/
def rowStoreRangeRun (s : Store) (lo hi : ℕ) (raw : Option String) (o : PinRun) (fuel : ℕ) :
    Option (Except String Store) :=
  if hi < lo ∨ s.rows < hi then some (.error "invalid row ownership range") else
  if s.scales.isSome ∧ (lo ≠ s.rowLo ∨ hi ≠ s.rowHi) then
    some (.error "ownership range changed after the scale shard was pinned")
  else
    let s := { s with rowLo := lo, rowHi := hi }
    if s.scales.isNone ∧ lo < hi ∧ envFlag raw true then
      (pinScalesRun s o fuel).map fun r => .ok r.2.1
    else some (.ok s)

/-! ### The staging buffer -/

theorem length_load (buffer : ℕ → UInt8) (src len : ℕ) : (load buffer src len).length = len := by
  rw [load, List.length_map, List.length_range]

/-- What a `memcpy` takes from the part that has just been read. -/
theorem load_store (buffer : ℕ → UInt8) {page : List UInt8} {src len : ℕ}
    (h : src + len ≤ page.length) : load (store buffer page) src len = slice page src len := by
  refine List.ext_getElem? fun i => ?_
  by_cases hi : i < len
  · have hin : src + i < page.length := by omega
    rw [getElem?_slice _ _ hi, load, List.getElem?_map, List.getElem?_range hi, Option.map_some,
      store, List.getElem?_eq_getElem hin, Option.getD_some]
  · rw [List.getElem?_eq_none (by rw [length_load]; omega),
      List.getElem?_eq_none (by rw [length_slice h]; omega)]

/-! ### One turn of the loop -/

section Turn

variable {file : List UInt8} {start stop : ℕ} {reads : ℕ → ReadResult}

/-- After a read the code copies what `copyIn` says, out of what was read. -/
theorem out_advance (p : PinFrame) (page : List UInt8) :
    (p.advance start stop page).out = copyIn start stop p.out p.offset page := by
  rw [PinFrame.advance, copyIn]
  by_cases hcopy : max p.offset start < min (p.offset + page.length) stop
  · rw [if_pos hcopy, if_pos hcopy, load_store _ (by omega)]
  · rw [if_neg hcopy, if_neg hcopy]

theorem offset_advance (p : PinFrame) (page : List UInt8) :
    (p.advance start stop page).offset = p.offset + page.length := by
  rw [PinFrame.advance]
  split <;> rfl

/-- A copy is inside both of its buffers; the staging buffer has `span` bytes, the resident
file `size`. -/
def Memcpy.Inside (size bytes : ℕ) (c : Memcpy) : Prop :=
  c.dst + c.len ≤ bytes ∧
    match c.source with
    | .resident => c.src + c.len ≤ size
    | .staging => c.src + c.len ≤ span

/-- The copy window is the part read, cut down to the range. -/
theorem inside_advance {size : ℕ} {p : PinFrame} {page : List UInt8} (hpage : page.length ≤ span)
    (hp : ∀ c ∈ p.copies, c.Inside size (stop - start)) :
    ∀ c ∈ (p.advance start stop page).copies, c.Inside size (stop - start) := by
  intro c hc
  rw [PinFrame.advance] at hc
  split at hc
  · obtain hc | hc := List.mem_append.mp hc
    · exact hp c hc
    · obtain rfl := List.mem_singleton.mp hc
      constructor
      · dsimp only
        omega
      · dsimp only
        omega
  · exact hp c hc

/-- A read gives no more than was asked, and this fits the staging buffer. -/
theorem length_page_le (offset n pages : ℕ) :
    (slice file offset (min n (min span pages))).length ≤ span := by
  rw [slice, List.length_take]
  exact (Nat.min_le_left _ _).trans ((Nat.min_le_right _ _).trans (Nat.min_le_left _ _))

/-- **Every copy is inside both buffers.** -/
theorem inside_pinReads (size : ℕ) {fuel k : ℕ} {p : PinFrame} {r : Bool × PinFrame}
    (hp : ∀ c ∈ p.copies, c.Inside size (stop - start))
    (h : pinReads file start stop reads fuel k p = some r) :
    ∀ c ∈ r.2.copies, c.Inside size (stop - start) := by
  induction fuel generalizing k p with
  | zero => exact nomatch h
  | succ fuel ih =>
    rw [pinReads] at h
    split at h
    -- one case for each outcome of the read
    · cases hk : reads k with
      | eintr =>
        simp only [hk] at h
        exact ih hp h
      | error =>
        simp only [hk] at h
        cases h
        exact hp
      | bytes n =>
        simp only [hk] at h
        split at h
        · cases h
          exact hp
        -- the page is copied inside the area, the loop goes on
        · exact ih (inside_advance (length_page_le _ _ _) hp) h
    · cases h
      exact hp

/-! ### A run of the loop is a loop over outcomes -/

/-- The reads that were made before do not matter. -/
theorem pinLoop_congr {outcomes outcomes' : ℕ → Option ℕ} {k offset : ℕ} {out : List UInt8}
    (h : ∀ j, k ≤ j → outcomes j = outcomes' j) :
    pinLoop file start stop outcomes k offset out =
      pinLoop file start stop outcomes' k offset out := by
  -- the outcomes before k are never read
  fun_induction pinLoop file start stop outcomes k offset out with
  | case1 k offset out hlt want hread =>
    rw [pinLoop, if_pos hlt, ← h k (le_refl k)]
    simp only [want] at hread
    simp only [hread]
  | case2 k offset out hlt want buffer hread hzero =>
    rw [pinLoop, if_pos hlt, ← h k (le_refl k)]
    simp only [want] at hread
    simp only [hread, if_pos hzero]
  -- the rest of the loop starts behind k
  | case3 k offset out hlt want buffer hread hpos ih =>
    rw [ih fun j hj => h j (by omega)]
    conv_rhs => rw [pinLoop, if_pos hlt, ← h k (le_refl k)]
    simp only [want] at hread
    simp only [hread, if_neg hpos]
  | case4 k offset out hge => rw [pinLoop, if_neg hge]

/-- **A run of the loop that ends** has pinned what `pinLoop` gives for the outcomes of its
uninterrupted reads. -/
theorem pinReads_refines {fuel k : ℕ} {p : PinFrame} {r : Bool × PinFrame}
    (h : pinReads file start stop reads fuel k p = some r) (k' : ℕ) :
    ∃ outcomes, pinLoop file start stop outcomes k' p.offset p.out =
      if r.1 then some r.2.out else none := by
  induction fuel generalizing k k' p with
  | zero => exact nomatch h
  | succ fuel ih =>
    rw [pinReads] at h
    split at h
    · rename_i hlt
      -- the read of the first page that is missing
      cases hk : reads k with
      | eintr =>
        -- an interrupted read is none of the outcomes
        simp only [hk] at h
        exact ih h k'
      | error =>
        simp only [hk] at h
        cases h
        refine ⟨fun _ => none, ?_⟩
        rw [pinLoop, if_pos hlt]
        rfl
      | bytes n =>
        simp only [hk] at h
        split at h
        · rename_i hzero
          cases h
          refine ⟨fun _ => some n, ?_⟩
          rw [pinLoop, if_pos hlt]
          exact if_pos hzero
        · rename_i hpos
          obtain ⟨outcomes, hrest⟩ := ih h (k' + 1)
          rw [offset_advance, out_advance] at hrest
          -- this outcome first, then those of the rest of the run
          refine ⟨Function.update outcomes k' (some n), ?_⟩
          rw [pinLoop, if_pos hlt, Function.update_self, ← hrest]
          refine (if_neg hpos).trans (pinLoop_congr fun j hj => ?_)
          exact Function.update_of_ne (by omega) _ _
    · rename_i hge
      cases h
      -- everything is read, whatever the outcomes
      refine ⟨fun _ => none, ?_⟩
      rw [pinLoop, if_neg hge]
      rfl

/-! ### The loop ends -/

/-- Interrupted reads only cost turns. -/
theorem exists_pinReads_of_eintr {k j : ℕ} (hkj : k ≤ j) {p : PinFrame}
    (heintr : ∀ i, k ≤ i → i < j → reads i = .eintr)
    (h : ∃ fuel r, pinReads file start stop reads fuel j p = some r) :
    ∃ fuel r, pinReads file start stop reads fuel k p = some r := by
  obtain ⟨d, rfl⟩ := Nat.exists_eq_add_of_le hkj
  clear hkj
  induction d generalizing k with
  | zero => exact h
  | succ d ih =>
    obtain ⟨fuel, r, h⟩ := ih (k := k + 1) (fun i hi hij => heintr i (by omega) (by omega))
      (by rwa [Nat.add_right_comm])
    by_cases hstop : p.offset < stop
    · have hk := heintr k (le_refl k) (by omega)
      exact ⟨fuel + 1, r, by simp only [pinReads, if_pos hstop, hk, h]⟩
    · exact ⟨1, (true, p), by rw [pinReads, if_neg hstop]⟩

/-- A loop that is only interrupted does not end. -/
theorem pinReads_eintr (hreads : ∀ k, reads k = .eintr) {p : PinFrame} (hp : p.offset < stop)
    (fuel k : ℕ) : pinReads file start stop reads fuel k p = none := by
  induction fuel generalizing k with
  | zero => rfl
  | succ fuel ih =>
    rw [pinReads, if_pos hp]
    simp only [hreads k]
    exact ih (k + 1)

/-- **The loop ends** unless from some read on all are interrupted: every other read either
fails or brings the offset closer to the end. -/
theorem exists_pinReads (file : List UInt8) (start stop : ℕ)
    (hreads : ∀ k, ∃ j, k ≤ j ∧ reads j ≠ .eintr) (k : ℕ) (p : PinFrame) :
    ∃ fuel r, pinReads file start stop reads fuel k p = some r := by
  induction hleft : stop - p.offset using Nat.strong_induction_on generalizing k p with
  | _ left ih =>
  by_cases hstop : p.offset < stop
  case neg => exact ⟨1, (true, p), by rw [pinReads, if_neg hstop]⟩
  -- the first read that is not interrupted
  classical
  obtain ⟨hkj, hj⟩ := Nat.find_spec (hreads k)
  have hfirst := fun i => @Nat.find_min _ _ (hreads k) i
  generalize Nat.find (hreads k) = j at hkj hj hfirst
  refine exists_pinReads_of_eintr hkj (fun i hi hij => ?_) ?_
  · exact by_contra fun hne => hfirst i hij ⟨hi, hne⟩
  -- that read either ends the loop or brings the range nearer to its end
  cases hread : reads j with
  | eintr => exact absurd hread hj
  | error => exact ⟨1, (false, p), by simp only [pinReads, if_pos hstop, hread]⟩
  | bytes n =>
    by_cases hzero : (slice file p.offset (min n (min span
        ((stop - p.offset + kPage - 1) / kPage * kPage)))).length = 0
    · exact ⟨1, (false, p), by simp only [pinReads, if_pos hstop, hread, if_pos hzero]⟩
    · obtain ⟨fuel, r, h⟩ := ih _ (by rw [← hleft, offset_advance]; omega) (j + 1)
        (p.advance start stop (slice file p.offset (min n (min span
          ((stop - p.offset + kPage - 1) / kPage * kPage))))) rfl
      exact ⟨fuel + 1, r, by simp only [pinReads, if_pos hstop, hread, if_neg hzero, h]⟩

end Turn

/-! ### The function -/

section Scales

variable {s : Store} {o : PinRun}

/-- The scales of owned rows lie inside the file. -/
theorem scales_in_file (hext : s.toTable.Extent) (hrows : s.rowHi ≤ s.rows)
    (hle : s.rowLo ≤ s.rowHi) :
    s.scaleOffset + s.rowLo * kScaleBytes + (s.rowHi - s.rowLo) * kScaleBytes ≤ s.file.length := by
  simp only [Table.Extent, not_or] at hext
  obtain ⟨-, hoff, -, hscales⟩ := hext
  simp only [kScaleBytes]
  omega

theorem left_ne_zero {a b : ℕ} (h : a * b ≠ 0) : a ≠ 0 :=
  fun ha => h (by rw [ha, Nat.zero_mul])

/-- What a run that ends has done: it returned at once, or its loop ended. -/
theorem pinScalesRun_cases {fuel : ℕ} {ok : Bool} {s' : Store} {copies : List Memcpy}
    (h : pinScalesRun s o fuel = some (ok, s', copies)) :
    let start := s.scaleOffset + s.rowLo * kScaleBytes
    let bytes := (s.rowHi - s.rowLo) * kScaleBytes
    (ok = false ∧ s' = s ∧ copies = []) ∨
    (s.resident = true ∧ bytes ≠ 0 ∧ o.mapped = true ∧ ok = true ∧
      (∃ out, out = overwrite (List.replicate bytes 0) 0 (slice s.file start bytes) ∧
        s' = { s with scales := some out }) ∧
      copies = [⟨.resident, 0, start, bytes⟩]) ∨
    (s.resident = false ∧ bytes ≠ 0 ∧ o.mapped = true ∧ o.aligned = true ∧
      ∃ p, pinReads s.file start (start + bytes) o.reads fuel 0
          { offset := start / kPage * kPage, out := List.replicate bytes 0, buffer := o.staging,
            copies := [] } = some (ok, p) ∧
        copies = p.copies ∧ s' = if ok then { s with scales := some p.out } else s) := by
  intro start bytes
  simp only [pinScalesRun] at h
  -- the ways out in the order of the function
  by_cases hcount : s.rowHi - s.rowLo = 0
  · rw [if_pos hcount] at h
    cases h
    exact .inl ⟨rfl, rfl, rfl⟩
  have hbytes : bytes ≠ 0 := Nat.mul_ne_zero hcount (by decide)
  rw [if_neg hcount] at h
  by_cases hmapped : o.mapped = true
  case neg =>
    rw [if_pos hmapped] at h
    cases h
    exact .inl ⟨rfl, rfl, rfl⟩
  rw [if_neg (not_not.mpr hmapped)] at h
  -- a resident table is copied in one piece
  by_cases hres : s.resident = true
  · rw [if_pos hres] at h
    cases h
    exact .inr (.inl ⟨hres, hbytes, hmapped, rfl, ⟨_, rfl, rfl⟩, rfl⟩)
  rw [if_neg hres] at h
  -- a table on disk is read into a page-aligned area
  by_cases haligned : o.aligned = true
  case neg =>
    rw [if_pos haligned] at h
    cases h
    exact .inl ⟨rfl, rfl, rfl⟩
  rw [if_neg (not_not.mpr haligned)] at h
  obtain ⟨⟨b, p⟩, hrun, hr⟩ := Option.map_eq_some_iff.mp h
  refine .inr (.inr ⟨Bool.not_eq_true _ ▸ hres, hbytes, hmapped, haligned, p, ?_⟩)
  cases b with
  | true =>
    cases hr
    exact ⟨hrun, rfl, rfl⟩
  | false =>
    cases hr
    exact ⟨hrun, rfl, rfl⟩

/-- **A run that ends is a run of `pinScales`**: it pins what `pinScales` gives, and returns
whether there is something. -/
theorem pinScalesRun_refines (hext : s.toTable.Extent) (hrows : s.rowHi ≤ s.rows)
    (hle : s.rowLo ≤ s.rowHi) {fuel : ℕ} {ok : Bool} {s' : Store} {copies : List Memcpy}
    (h : pinScalesRun s o fuel = some (ok, s', copies)) :
    ∃ o' : PinOutcome, ok = (pinScales s o').isSome ∧
      s' = if ok then { s with scales := pinScales s o' } else s := by
  obtain ⟨rfl, rfl, -⟩ | ⟨hres, hpos, hmapped, rfl, ⟨_, rfl, rfl⟩, -⟩ |
    ⟨hres, hpos, hmapped, haligned, p, hrun, -, rfl⟩ := pinScalesRun_cases h
  · -- nothing is mapped, so that nothing is pinned
    refine ⟨⟨false, false, fun _ => none⟩, ?_, rfl⟩
    rw [pinScales]
    split <;> rfl
  -- the resident scales are the slice of the file
  · refine ⟨⟨true, false, fun _ => none⟩, ?_⟩
    have hpin : pinScales s ⟨true, false, fun _ => none⟩ = some (slice s.file
        (s.scaleOffset + s.rowLo * kScaleBytes) ((s.rowHi - s.rowLo) * kScaleBytes)) := by
      rw [pinScales, if_neg (left_ne_zero hpos), if_neg (by decide), if_pos hres]
    have hlen := length_slice (scales_in_file hext hrows hle)
    have hall : overwrite (List.replicate ((s.rowHi - s.rowLo) * kScaleBytes) 0) 0
        (slice s.file (s.scaleOffset + s.rowLo * kScaleBytes)
          ((s.rowHi - s.rowLo) * kScaleBytes)) = slice s.file
        (s.scaleOffset + s.rowLo * kScaleBytes) ((s.rowHi - s.rowLo) * kScaleBytes) := by
      rw [overwrite, hlen, Nat.zero_add, List.take_zero, List.nil_append,
        List.drop_eq_nil_of_le (by rw [List.length_replicate]), List.append_nil]
    exact ⟨by rw [hpin]; rfl, by simp only [hpin, hall, if_true]⟩
  -- the run of the loop is one with the interrupted reads left out
  · obtain ⟨outcomes, hloop⟩ := pinReads_refines hrun 0
    have hpin : pinScales s ⟨true, true, outcomes⟩ = if ok then some p.out else none := by
      rw [pinScales, if_neg (left_ne_zero hpos), if_neg (not_not.mpr rfl)]
      simp only [hres, if_false, Bool.false_eq_true]
      exact (if_neg (not_not.mpr trivial)).trans hloop
    refine ⟨⟨true, true, outcomes⟩, ?_⟩
    rw [hpin]
    cases ok with
    | true => exact ⟨rfl, rfl⟩
    | false => exact ⟨rfl, rfl⟩

/-- The range call is the one of the model above. -/
theorem rowStoreRangeRun_refines (hext : s.toTable.Extent) {lo hi : ℕ} {raw : Option String}
    {fuel : ℕ} {r : Except String Store} (h : rowStoreRangeRun s lo hi raw o fuel = some r) :
    ∃ o' : PinOutcome, rowStoreRange s lo hi raw o' = r := by
  unfold rowStoreRangeRun at h
  split at h
  -- a range outside the table
  · rename_i hrange
    exact ⟨⟨false, false, fun _ => none⟩, (if_pos hrange).trans (Option.some.inj h)⟩
  rename_i hrange
  split at h
  -- a range that moves under an attached shard
  · rename_i hmoved
    refine ⟨⟨false, false, fun _ => none⟩, ?_⟩
    rw [rowStoreRange, if_neg hrange, if_pos hmoved]
    exact Option.some.inj h
  rename_i hmoved
  simp only at h
  split at h
  -- the scales are pinned by this call
  · rename_i hpin
    obtain ⟨⟨ok, s', copies⟩, hrun, rfl⟩ := Option.map_eq_some_iff.mp h
    obtain ⟨o', hok, rfl⟩ := pinScalesRun_refines (s := { s with rowLo := lo, rowHi := hi })
      hext (by show hi ≤ s.rows; omega) (by show lo ≤ hi; omega) hrun
    refine ⟨o', ?_⟩
    rw [rowStoreRange, if_neg hrange, if_neg hmoved]
    refine (if_pos hpin).trans (congrArg Except.ok ?_)
    cases ok with
    | true => rfl
    | false =>
      -- not pinned by this call, and not before it
      have hnone := Option.isSome_eq_false_iff.mp hok.symm
      rw [Option.isNone_iff_eq_none.mp hnone, ← Option.isNone_iff_eq_none.mp hpin.1]
      rfl
  · rename_i hpin
    refine ⟨⟨false, false, fun _ => none⟩, ?_⟩
    rw [rowStoreRange, if_neg hrange, if_neg hmoved]
    exact (if_neg hpin).trans (Option.some.inj h)

/-- A run ends unless from some read on all are interrupted. -/
theorem exists_pinScalesRun (hreads : ∀ k, ∃ j, k ≤ j ∧ o.reads j ≠ .eintr) (s : Store) :
    ∃ fuel r, pinScalesRun s o fuel = some r := by
  obtain ⟨fuel, r, h⟩ := exists_pinReads s.file (s.scaleOffset + s.rowLo * kScaleBytes)
    (s.scaleOffset + s.rowLo * kScaleBytes + (s.rowHi - s.rowLo) * kScaleBytes) hreads 0
    ⟨(s.scaleOffset + s.rowLo * kScaleBytes) / kPage * kPage,
      List.replicate ((s.rowHi - s.rowLo) * kScaleBytes) 0, o.staging, []⟩
  refine ⟨fuel, ?_⟩
  simp only [pinScalesRun, h, Option.map_some]
  split_ifs <;> exact ⟨_, rfl⟩

/-- **Pinning the scales is all or nothing**, for a store that `row_store_open` accepted and a
range of its rows, called while no scales are pinned (the only call is behind that test). The
run ends unless from some read on the kernel interrupts every one. If it returns true, the
pinned bytes are those of the file at every index; if it returns false, none are pinned; and
every copy is inside both buffers. -/
theorem pin_scales_all_or_nothing (s : Store) (hext : s.toTable.Extent)
    (hlt : s.rowLo < s.rowHi) (hrows : s.rowHi ≤ s.rows) (hnone : s.scales = none) (o : PinRun) :
    ((∀ k, ∃ j, k ≤ j ∧ o.reads j ≠ .eintr) → ∃ fuel r, pinScalesRun s o fuel = some r) ∧
    ∀ fuel ok s' copies, pinScalesRun s o fuel = some (ok, s', copies) →
      s' = { s with scales := s'.scales } ∧
      (ok = true → ∃ b, s'.scales = some b ∧ b.length = 8 * (s.rowHi - s.rowLo) ∧
        s.scaleOffset + 8 * s.rowHi ≤ s.file.length ∧
        ∀ i < 8 * (s.rowHi - s.rowLo), b[i]? = s.file[s.scaleOffset + 8 * s.rowLo + i]?) ∧
      (ok = false → s'.scales = none) ∧
      ∀ c ∈ copies, c.Inside s.file.length (8 * (s.rowHi - s.rowLo)) := by
  have hfile := scales_in_file hext hrows hlt.le
  refine ⟨fun hreads => exists_pinScalesRun hreads s, fun fuel ok s' copies h => ?_⟩
  obtain ⟨o', hok, hs'⟩ := pinScalesRun_refines hext hrows hlt.le h
  refine ⟨?_, ?_, ?_, ?_⟩
  · cases ok <;> rw [hs'] <;> rfl
  -- pinned scales are those of the range
  · rintro rfl
    obtain ⟨b, hb⟩ := Option.isSome_iff_exists.mp hok.symm
    have hslice := pinScales_ok hb
    have hlen := length_slice hfile
    rw [← hslice] at hlen
    simp only [kScaleBytes] at hfile hlen hslice
    refine ⟨b, by rw [hs']; exact hb, by omega, by omega, fun i hi => ?_⟩
    rw [hslice, getElem?_slice _ _ (by omega), Nat.mul_comm 8]
  -- nothing is left behind
  · rintro rfl
    rw [hs']
    exact hnone
  -- every copy stays inside its area
  · rw [Nat.mul_comm]
    obtain ⟨-, -, rfl⟩ | ⟨-, -, -, -, -, rfl⟩ | ⟨-, -, -, -, p, hrun, rfl, -⟩ :=
      pinScalesRun_cases h
    · intro c hc
      cases hc
    · intro c hc
      obtain rfl := List.mem_singleton.mp hc
      exact ⟨(Nat.zero_add _).le, hfile⟩
    · have hinside := inside_pinReads s.file.length
        (fun c hc => absurd hc List.not_mem_nil) hrun
      rwa [Nat.add_sub_cancel_left] at hinside

end Scales

/-- One row, its scale at the end of the file. -/
def oneRow : Table where
  file := List.replicate 256 0 ++ [1, 2, 3, 4, 5, 6, 7, 8]
  rows := 1
  weightOffset := 0
  scaleOffset := 256

theorem oneRow_extent : oneRow.Extent := by decide +kernel

/-- Reads that are short of the range and then in the middle of it, one of them
interrupted. -/
def shortReads : PinRun where
  mapped := true
  aligned := true
  staging := fun _ => 0
  reads := fun k => if k = 1 then .eintr else .bytes 130

/-- Instance: short reads pin the scale of one row. -/
theorem pin_scales_all_or_nothing_short :
    ∃ fuel r, pinScalesRun (freshStore oneRow false 0 4) shortReads fuel = some r :=
  (pin_scales_all_or_nothing (freshStore oneRow false 0 4) oneRow_extent Nat.one_pos (le_refl 1)
    rfl shortReads).1 fun k => ⟨k + 2, by omega, by simp [shortReads]⟩

example : (pinScalesRun (freshStore oneRow false 0 4) shortReads 5).map
      (fun r => (r.1, r.2.1.scales, r.2.2)) =
    some (true, some [1, 2, 3, 4, 5, 6, 7, 8], [⟨.staging, 0, 126, 4⟩, ⟨.staging, 4, 0, 4⟩]) := by
  decide +kernel

/-- **Interrupted for ever**: if the kernel interrupts every read, the code repeats it and
never returns. -/
theorem interrupted_never_ends :
    ¬ ∃ fuel r, pinScalesRun (freshStore oneRow false 0 4)
      ⟨true, true, fun _ => 0, fun _ => .eintr⟩ fuel = some r := by
  rintro ⟨fuel, r, h⟩
  have hrun : pinReads oneRow.file 256 264 (fun _ => .eintr) fuel 0
      ⟨0, List.replicate 8 0, fun _ => 0, []⟩ = none :=
    pinReads_eintr (fun _ => rfl) (show 0 < 264 by decide) fuel 0
  have hr : (pinReads oneRow.file 256 264 (fun _ => .eintr) fuel 0
      ⟨0, List.replicate 8 0, fun _ => 0, []⟩).map _ = some r := h
  rw [hrun] at hr
  exact nomatch hr

end RowStore
end Dsv41Overlay
