import Dsv41Overlay.Lib.SetCache
import Dsv41Overlay.RowStore.Disk

/-!
# The row store and the calls that set it up

`row_store_open` takes a table and builds an empty cache, `row_store_range` sets
the rows this rank owns and may pin their scales in memory, and
`row_store_attach_packed` puts a packed shard in front of the table. After that a
row can be read from three places (`readRow`): the shard, the table's weight with
the pinned scale, or both tensors of the table.

`Sources` is what the calls keep true of the places: the pinned scales are those
of the range in force, and the shard is a shard of this table. It does *not* say
that the shard is one for the range in force: `row_store_range` moves the range
while a shard is attached. `Kept` says that the first row of the shard is still
the first row of the range, and under it a read that succeeds gives the row
(`readRow_ok`).
-/

namespace Dsv41Overlay
namespace RowStore

/-- A store: its table, the rows it owns, its cache, and what rows are read from. -/
structure Store extends Table where
  rowLo : ℕ
  rowHi : ℕ
  cache : SetCache (List UInt8)
  /-- `OFFLOAD_MODE=ram`: the whole file is in memory. -/
  resident : Bool
  /-- The owned scale rows, when they are pinned. -/
  scales : Option (List UInt8)
  /-- The file behind `packed_fd`. -/
  packed : Option (List UInt8)
  hits : ℕ
  misses : ℕ

/-- The part of `fetch_row` between its locked sections: a row read from the shard,
or else from the table. A row may cost two reads, so there are two outcomes. -/
def readRow (s : Store) (id : ℕ) (o : Option ℕ × Option ℕ) : Except String (List UInt8) :=
  match s.packed with
  | some shard =>
    readFrom false shard (kPackedHeader + (id - s.rowLo) * kRowBytes) kRowBytes o.1
  | none => do
    let weight ← readFrom s.resident s.file (s.weightOffset + id * kWeightBytes) kWeightBytes o.1
    match s.scales with
    | some scales => pure (weight ++ slice scales ((id - s.rowLo) * kScaleBytes) kScaleBytes)
    | none =>
      let scale ← readFrom s.resident s.file (s.scaleOffset + id * kScaleBytes) kScaleBytes o.2
      pure (weight ++ scale)

/-! ### Opening -/

/-- What the system grants `row_store_open`: the mapping of the file and its lock in
memory (in RAM mode), and the cache. -/
structure OpenOutcome where
  mapped : Bool
  locked : Bool
  cached : Bool
deriving Repr, DecidableEq

/-- The ways of a set, from the value of `DSV41_CACHE_WAYS`. -/
def cacheWays (ways : ℕ) : ℕ := max 1 (min 16 ways)

/-- The sets that the budget has room for: rows, keys and a cursor. There is no cache
in RAM mode. -/
def cacheSets (ram : Bool) (budget ways : ℕ) : ℕ :=
  (if ram then 0 else budget) / ((kRowBytes + 8) * ways + 1)

/-- A store that owns every row of the table and has read none. -/
def freshStore (t : Table) (ram : Bool) (sets ways : ℕ) : Store where
  toTable := t
  rowLo := 0
  rowHi := t.rows
  cache := .empty sets ways (List.replicate kRowBytes 0)
  resident := ram
  scales := none
  packed := none
  hits := 0
  misses := 0

/-- `row_store_open` on a file that can be opened. `ways` is the value of
`DSV41_CACHE_WAYS`, `ram` tells `OFFLOAD_MODE=ram`. -/
def rowStoreOpen (t : Table) (ram : Bool) (ways budget : ℕ) (o : OpenOutcome) :
    Except String Store :=
  if ¬ t.Extent then .error "invalid table extent" else
  if ram ∧ ¬ o.mapped then .error "resident mapping" else
  if ram ∧ ¬ o.locked then .error "RAM mode requires memlock capability and sufficient RAM" else
  -- RAM mode has set the budget to `0`
  let sets := cacheSets ram budget (cacheWays ways)
  if sets * cacheWays ways ≠ 0 ∧ ¬ o.cached then .error "cache allocation" else
  .ok (freshStore t ram sets (cacheWays ways))

/-! ### Pinning the scales -/

/-- The size of the staging buffer of `pin_scales`. -/
def span : ℕ := 8 * 2 ^ 20

/-- The copy after a read: the bytes of `buffer`, read from `offset` on, that lie
between `start` and `stop`. -/
def copyIn (start stop : ℕ) (out : List UInt8) (offset : ℕ) (buffer : List UInt8) : List UInt8 :=
  let lo := max offset start
  let hi := min (offset + buffer.length) stop
  if lo < hi then overwrite out (lo - start) (slice buffer (lo - offset) (hi - lo)) else out

/-- The loop of `pin_scales`: `out` is the mapped buffer for the bytes from `start`
up to `stop`, `offset` is where the read number `k` starts. -/
def pinLoop (file : List UInt8) (start stop : ℕ) (reads : ℕ → Option ℕ) (k offset : ℕ)
    (out : List UInt8) : Option (List UInt8) :=
  if offset < stop then
    let want := min span ((stop - offset + kPage - 1) / kPage * kPage)
    match pread file offset want (reads k) with
    | none => none
    | some buffer =>
      if buffer.length = 0 then none else
      pinLoop file start stop reads (k + 1) (offset + buffer.length)
        (copyIn start stop out offset buffer)
  else some out
termination_by stop - offset

/-- What the system grants `pin_scales`: the mapping, the staging buffer and the
outcomes of its reads. -/
structure PinOutcome where
  mapped : Bool
  aligned : Bool
  reads : ℕ → Option ℕ

/-- `pin_scales`: the owned scale rows, or nothing if it fails. -/
def pinScales (s : Store) (o : PinOutcome) : Option (List UInt8) :=
  if s.rowHi - s.rowLo = 0 then none else
  if ¬ o.mapped then none else
  let bytes := (s.rowHi - s.rowLo) * kScaleBytes
  let start := s.scaleOffset + s.rowLo * kScaleBytes
  if s.resident then some (slice s.file start bytes) else
  if ¬ o.aligned then none else
  pinLoop s.file start (start + bytes) o.reads 0 (start / kPage * kPage) (List.replicate bytes 0)

/-! ### The range -/

/-- `env_flag`: unset or empty means the fallback. -/
def envFlag (raw : Option String) (fallback : Bool) : Bool :=
  match raw with
  | none => fallback
  | some raw => if raw = "" then fallback else ¬ (raw = "0" ∨ raw = "off" ∨ raw = "false")

/-- `row_store_range`; `raw` is the value of `DSV41_RESIDENT_SCALES`. -/
def rowStoreRange (s : Store) (lo hi : ℕ) (raw : Option String) (o : PinOutcome) :
    Except String Store :=
  if hi < lo ∨ s.rows < hi then .error "invalid row ownership range" else
  -- the only guard against a move: an attached shard is not looked at
  if s.scales.isSome ∧ (lo ≠ s.rowLo ∨ hi ≠ s.rowHi) then
    .error "ownership range changed after the scale shard was pinned"
  else
    let s := { s with rowLo := lo, rowHi := hi }
    -- a failure to pin costs a second read and is no error
    if s.scales.isNone ∧ lo < hi ∧ envFlag raw true then .ok { s with scales := pinScales s o }
    else .ok s

/-! ### The shard -/

/-- `row_store_attach_packed`. There may be no file; otherwise its header is read,
with the given outcome. The result tells whether the shard is in use. -/
def rowStoreAttachPacked (s : Store) (shard : Option (List UInt8)) (layerId : ℕ)
    (o : Option ℕ) : Except String (Store × ℕ) :=
  match shard with
  | none => .ok (s, 0)
  | some shard =>
    match pread shard 0 kPage o with
    | none => .error "packed Engram shard has no header"
    | some header =>
      if header.length < kPage then .error "packed Engram shard has no header" else
      let lo := headerWord header 2
      let hi := headerWord header 3
      if headerWord header 0 ≠ kPackedMagic ∨ headerWord header 1 ≠ layerId ∨ lo ≠ s.rowLo
          ∨ hi ≠ s.rowHi ∨ headerWord header 4 ≠ s.rows ∨ headerWord header 5 ≠ kRowBytes then
        -- present but not for this rank: the checkpoint is used
        .ok (s, 0)
      else if shard.length < kPackedHeader + (hi - lo) * kRowBytes then
        .error "packed Engram shard is truncated"
      else .ok ({ s with packed := some shard }, 1)


/-! ### What the calls keep

Each call has its inversion (what it returned and why), then the invariant. -/

/-- What is true of the places that rows are read from. -/
structure Sources (t : Table) (s : Store) : Prop where
  /-- The store is one of the table. -/
  table : s.toTable = t
  /-- The tensors lie inside the file. -/
  extent : t.Extent
  /-- The range is one of rows of the table. -/
  range : s.rowLo ≤ s.rowHi ∧ s.rowHi ≤ t.rows
  /-- Pinned scales are those of the range in force. -/
  scales : ∀ b, s.scales = some b →
    b = slice t.file (t.scaleOffset + s.rowLo * kScaleBytes) ((s.rowHi - s.rowLo) * kScaleBytes)
  /-- The shard is a shard of the table. -/
  packed : ∀ p, s.packed = some p → IsShard t p

/-- The shard in use, if there is one, starts with the first row of the range in
force. -/
def Store.Kept (s : Store) : Prop := ∀ p, s.packed = some p → headerWord p 2 = s.rowLo

/-- The row `id` is owned: it is in the range in force. -/
def Store.Owns (s : Store) (id : ℕ) : Prop := s.rowLo ≤ id ∧ id < s.rowHi

instance (s : Store) (id : ℕ) : Decidable (s.Owns id) := inferInstanceAs (Decidable (_ ∧ _))

variable {t : Table} {s s' : Store}

/-- The scale of an owned row, found in the scales of the range. -/
theorem slice_pinned (t : Table) {lo hi id : ℕ} (hlo : lo ≤ id) (hid : id < hi) :
    slice (slice t.file (t.scaleOffset + lo * kScaleBytes) ((hi - lo) * kScaleBytes))
      ((id - lo) * kScaleBytes) kScaleBytes = t.scale id := by
  rw [slice_slice _ _ (by simp only [kScaleBytes]; omega), Table.scale]
  congr 1
  simp only [kScaleBytes]
  omega

/-- The bytes at the places that the row `id` is read from. -/
def Store.source (s : Store) (id : ℕ) : List UInt8 :=
  match s.packed with
  | some shard => slice shard (kPackedHeader + (id - s.rowLo) * kRowBytes) kRowBytes
  | none =>
    s.toTable.weight id ++
      match s.scales with
      | some scales => slice scales ((id - s.rowLo) * kScaleBytes) kScaleBytes
      | none => s.toTable.scale id

/-- A read that does not abort gives those bytes; a packed record is then inside its
shard. -/
theorem readRow_source {id : ℕ} {o : Option ℕ × Option ℕ} {r : List UInt8}
    (h : readRow s id o = .ok r) :
    r = s.source id ∧ ∀ p, s.packed = some p →
      kPackedHeader + (id - s.rowLo) * kRowBytes + kRowBytes ≤ p.length := by
  unfold readRow at h
  split at h
  · -- one read, of the packed record
    rename_i shard hp
    obtain ⟨rfl, hin⟩ := readFrom_ok h
    refine ⟨by rw [Store.source, hp], fun p hp' => ?_⟩
    obtain rfl : shard = p := Option.some.inj (hp.symm.trans hp')
    exact hin rfl (by decide)
  · -- the weight by a read; the scale by another, unless it is pinned
    rename_i hp
    refine ⟨?_, fun p hp' => by rw [hp] at hp'; exact nomatch hp'⟩
    cases hw : readFrom s.resident s.file (s.weightOffset + id * kWeightBytes) kWeightBytes o.1 with
    | error e => rw [hw] at h; exact nomatch h
    | ok weight =>
      rw [hw] at h
      obtain ⟨rfl, _⟩ := readFrom_ok hw
      cases hsc : s.scales with
      | some scales =>
        rw [hsc] at h
        obtain rfl := Except.ok.inj h
        rw [Store.source, hp, hsc]
        rfl
      | none =>
        rw [hsc] at h
        cases hr :
            readFrom s.resident s.file (s.scaleOffset + id * kScaleBytes) kScaleBytes o.2 with
        | error e => simp only [hr] at h; exact nomatch h
        | ok scale =>
          simp only [hr] at h
          obtain ⟨rfl, _⟩ := readFrom_ok hr
          obtain rfl := Except.ok.inj h
          rw [Store.source, hp, hsc]
          rfl

/-- The record read for a row of a shard that starts at `lo`: the shard counts from
its own first row, the store from the range in force. -/
theorem source_packed {layer lo hi : ℕ} (hext : s.Extent) (hrows : hi ≤ s.rows)
    (hp : s.packed = some (packedShard s.toTable layer lo hi)) {id : ℕ}
    (hid : lo + (id - s.rowLo) < hi) :
    s.source id = s.toTable.row (lo + (id - s.rowLo)) := by
  have h := slice_packedShard hext layer hrows (Nat.le_add_right lo _) hid
  rw [Nat.add_sub_cancel_left] at h
  rw [Store.source, hp]
  exact h

/-- **A row that is read is the row**, from whichever place. -/
theorem readRow_ok (hs : Sources t s) (hk : s.Kept) {id : ℕ} (hid : s.Owns id)
    {o : Option ℕ × Option ℕ} {r : List UInt8} (h : readRow s id o = .ok r) : r = t.row id := by
  obtain ⟨hlo, hhi⟩ := hid
  obtain rfl := hs.table
  obtain ⟨rfl, hin⟩ := readRow_source h
  cases hp : s.packed with
  | some shard =>
    obtain ⟨layer, lo, hi, hlt, hrows, hlayer, h64, rfl⟩ := hs.packed shard hp
    have hfirst : lo = s.rowLo := by
      rw [← hk _ hp, packedShard, headerWord_packedHeader _ (k := 2) rfl (by omega)]
    -- the record lies inside the shard, so it is that of a row the shard has
    have hend := hin _ hp
    rw [length_packedShard layer lo hs.extent hrows] at hend
    have hrec : lo + (id - s.rowLo) < hi := by
      simp only [kRowBytes] at hend
      omega
    rw [source_packed hs.extent hrows hp hrec, hfirst, Nat.add_sub_cancel' hlo]
  | none =>
    rw [Store.source, hp]
    cases hsc : s.scales with
    | none => rfl
    | some scales =>
      have hscale := slice_pinned s.toTable hlo hhi
      rw [← hs.scales _ hsc] at hscale
      exact congrArg _ hscale

/-- What opening a table gives. -/
theorem rowStoreOpen_ok {ram : Bool} {ways budget : ℕ} {o : OpenOutcome}
    (h : rowStoreOpen t ram ways budget o = .ok s) :
    t.Extent ∧ ∃ sets w, 0 < w ∧ s = freshStore t ram sets w := by
  unfold rowStoreOpen at h
  split at h
  · exact nomatch h
  rename_i hext
  split at h
  · exact nomatch h
  split at h
  · exact nomatch h
  simp only at h
  split at h
  · exact nomatch h
  have hways : 0 < cacheWays ways := Nat.lt_of_lt_of_le Nat.zero_lt_one (le_max_left ..)
  exact ⟨not_not.mp hext, _, _, hways, (Except.ok.inj h).symm⟩

/-- One copy: if the bytes before `offset` are in place, then so are the bytes
before the end of what was read, wherever these two lie. -/
theorem copyIn_ok {file out buffer : List UInt8} {start stop offset : ℕ} (hle : start ≤ stop)
    (hlen : out.length = stop - start)
    (hout : ∀ i, start + i < offset → i < stop - start → out[i]? = file[start + i]?)
    (hbuffer : buffer = slice file offset buffer.length) :
    (copyIn start stop out offset buffer).length = stop - start
      ∧ ∀ i, start + i < offset + buffer.length → i < stop - start →
        (copyIn start stop out offset buffer)[i]? = file[start + i]? := by
  unfold copyIn
  simp only
  split
  · rename_i hcopy
    -- the window written over `out`
    have hdata : (slice buffer (max offset start - offset)
        (min (offset + buffer.length) stop - max offset start)).length
          = min (offset + buffer.length) stop - max offset start := length_slice (by omega)
    refine ⟨(length_overwrite (by rw [hdata]; omega)).trans hlen, fun i hread hi => ?_⟩
    -- before the window nothing is new; inside it stands what was read
    by_cases hbefore : i < max offset start - start
    · rw [getElem?_overwrite_before (by omega) hbefore]
      exact hout i (by omega) hi
    · rw [getElem?_overwrite_inside (by rw [hdata]; omega) (by omega) (by rw [hdata]; omega),
        getElem?_slice _ _ (by omega), hbuffer, getElem?_slice _ _ (by omega)]
      congr 1
      omega
  · exact ⟨hlen, fun i hread hi => hout i (by omega) hi⟩

/-- **Pinned scales are the file's**: what holds of the bytes copied so far holds of
all of them when the loop ends. -/
theorem pinLoop_ok {file : List UInt8} {start stop : ℕ} {reads : ℕ → Option ℕ} {k offset : ℕ}
    {out b : List UInt8} (hle : start ≤ stop) (hlen : out.length = stop - start)
    (hout : ∀ i, start + i < offset → i < stop - start → out[i]? = file[start + i]?)
    (h : pinLoop file start stop reads k offset out = some b) :
    b.length = stop - start ∧ ∀ i < stop - start, b[i]? = file[start + i]? := by
  fun_induction pinLoop file start stop reads k offset out with
  | case1 => exact nomatch h
  | case2 => exact nomatch h
  | case3 k offset out hlt want buffer hread hpos ih =>
    -- a short read is no end: the next one starts where it stopped
    obtain ⟨m, hm, rfl, _⟩ := length_pread hread
    obtain ⟨hlen', hout'⟩ := copyIn_ok hle hlen hout hm
    exact ih hlen' hout' h
  | case4 k offset out hge =>
    obtain rfl := Option.some.inj h
    exact ⟨hlen, fun i hi => hout i (by omega) hi⟩

/-- A list is the window of a file that it agrees with. -/
theorem eq_slice_of_getElem? {b file : List UInt8} {o n : ℕ} (hlen : b.length = n)
    (h : ∀ i < n, b[i]? = file[o + i]?) : b = slice file o n := by
  refine List.ext_getElem? fun i => ?_
  by_cases hi : i < n
  · rw [h i hi, getElem?_slice _ _ hi]
  · rw [List.getElem?_eq_none (by omega), List.getElem?_eq_none]
    rw [slice, List.length_take]
    omega

theorem pinScales_ok {o : PinOutcome} {b : List UInt8}
    (h : pinScales s o = some b) :
    b = slice s.file (s.scaleOffset + s.rowLo * kScaleBytes)
      ((s.rowHi - s.rowLo) * kScaleBytes) := by
  unfold pinScales at h
  split at h
  · exact nomatch h
  split at h
  · exact nomatch h
  simp only at h
  split at h
  · exact (Option.some.inj h).symm
  split at h
  · exact nomatch h
  -- nothing is copied yet, and the first page starts before the range
  have hpage := Nat.div_mul_le_self (s.scaleOffset + s.rowLo * kScaleBytes) kPage
  obtain ⟨hlen, hget⟩ := pinLoop_ok (Nat.le_add_right ..)
    (by rw [List.length_replicate, Nat.add_sub_cancel_left]) (fun i hi _ => by omega) h
  rw [Nat.add_sub_cancel_left] at hlen hget
  exact eq_slice_of_getElem? hlen hget

/-- What a change of the range gives. -/
theorem rowStoreRange_ok {lo hi : ℕ} {raw : Option String} {o : PinOutcome}
    (h : rowStoreRange s lo hi raw o = .ok s') :
    lo ≤ hi ∧ hi ≤ s.rows ∧ (s.scales = none ∨ lo = s.rowLo ∧ hi = s.rowHi)
      ∧ ∃ scales, s' = { s with rowLo := lo, rowHi := hi, scales }
        ∧ (scales = s.scales ∨ scales = pinScales { s with rowLo := lo, rowHi := hi } o) := by
  unfold rowStoreRange at h
  split at h
  · exact nomatch h
  rename_i hrange
  split at h
  · exact nomatch h
  rename_i hmoved
  -- pinned scales and a moved range are the case that has aborted
  have hpinned : s.scales = none ∨ lo = s.rowLo ∧ hi = s.rowHi := by
    cases hsc : s.scales with
    | none => exact .inl rfl
    | some b =>
      rw [hsc] at hmoved
      by_cases hlo : lo = s.rowLo
      · exact .inr ⟨hlo, by_contra fun hne => hmoved ⟨rfl, .inr hne⟩⟩
      · exact absurd ⟨rfl, .inl hlo⟩ hmoved
  refine ⟨by omega, by omega, hpinned, ?_⟩
  simp only at h
  split at h
  · exact ⟨_, (Except.ok.inj h).symm, .inr rfl⟩
  · exact ⟨_, (Except.ok.inj h).symm, .inl rfl⟩

/-- What attaching a shard gives: the store as it was, or with a shard whose header
names the range in force. -/
theorem rowStoreAttachPacked_ok {shard : Option (List UInt8)} {layerId : ℕ} {o : Option ℕ}
    {r : ℕ} (h : rowStoreAttachPacked s shard layerId o = .ok (s', r)) :
    s' = s ∨ ∃ p, shard = some p ∧ s' = { s with packed := some p }
      ∧ headerWord p 2 = s.rowLo := by
  unfold rowStoreAttachPacked at h
  split at h
  · exact .inl (Prod.mk.inj (Except.ok.inj h)).1.symm
  rename_i p
  split at h
  · exact nomatch h
  rename_i header hheader
  split at h
  · exact nomatch h
  rename_i hlong
  simp only at h
  split at h
  · exact .inl (Prod.mk.inj (Except.ok.inj h)).1.symm
  rename_i hmatch
  split at h
  · exact nomatch h
  -- the words are read from a whole page, so they are the file's
  obtain ⟨m, rfl, hm, _⟩ := length_pread hheader
  have hword : headerWord (slice p 0 m) 2 = headerWord p 2 := by
    rw [headerWord, slice_slice _ _ (by simp only [kPage] at hlong; omega), Nat.zero_add]
    rfl
  refine .inr ⟨p, rfl, (Prod.mk.inj (Except.ok.inj h)).1.symm, ?_⟩
  rw [← hword]
  exact by_contra fun hne => hmatch (.inr (.inr (.inl hne)))

/-- A shard of the range in force is accepted when its header can be read. -/
theorem rowStoreAttachPacked_packedShard {layer got : ℕ} (hext : s.Extent)
    (hrange : s.rowHi ≤ s.rows)
    (hlayer : layer < 2 ^ 64) (hrows : s.rows < 2 ^ 64) (hle : s.rowLo ≤ s.rowHi)
    (hgot : kPage ≤ got) :
    rowStoreAttachPacked s (some (packedShard s.toTable layer s.rowLo s.rowHi)) layer (some got)
      = .ok ({ s with packed := some (packedShard s.toTable layer s.rowLo s.rowHi) }, 1) := by
  have hlen := length_packedShard layer s.rowLo hext hrange
  have hheader : pread (packedShard s.toTable layer s.rowLo s.rowHi) 0 kPage (some got)
      = some (packedHeader layer s.rowLo s.rowHi s.rows) := by
    rw [pread, Option.map_some, Nat.min_eq_right hgot, packedShard]
    exact congrArg some (slice_append_self (length_packedHeader ..))
  have hword : ∀ k w, [kPackedMagic, layer, s.rowLo, s.rowHi, s.rows, kRowBytes][k]? = some w →
      w < 2 ^ 64 → headerWord (packedHeader layer s.rowLo s.rowHi s.rows) k = w := by
    intro k w hk hw
    have h := headerWord_packedHeader [] hk hw
    rwa [List.append_nil] at h
  have h0 := hword 0 _ rfl (by decide)
  have h1 := hword 1 _ rfl hlayer
  have h2 := hword 2 _ rfl (by omega)
  have h3 := hword 3 _ rfl (by omega)
  have h4 := hword 4 _ rfl hrows
  have h5 := hword 5 _ rfl (by decide)
  simp only [rowStoreAttachPacked, hheader, length_packedHeader, h0, h1, h2, h3, h4, h5]
  rw [if_neg (by decide), if_neg (by simp), if_neg (by omega)]

/-! ### The invariant -/

theorem sources_open {ram : Bool} {ways budget : ℕ} {o : OpenOutcome}
    (h : rowStoreOpen t ram ways budget o = .ok s) : Sources t s := by
  obtain ⟨hext, sets, w, _, rfl⟩ := rowStoreOpen_ok h
  exact ⟨rfl, hext, ⟨Nat.zero_le _, le_refl _⟩, fun _ hb => (nomatch hb), fun _ hp => (nomatch hp)⟩

theorem sources_range (hs : Sources t s) {lo hi : ℕ} {raw : Option String} {o : PinOutcome}
    (h : rowStoreRange s lo hi raw o = .ok s') : Sources t s' := by
  obtain ⟨hlo, hhi, hpinned, scales, rfl, hscales⟩ := rowStoreRange_ok h
  refine ⟨hs.table, hs.extent, ⟨hlo, by rw [← hs.table]; exact hhi⟩, fun b hb => ?_, hs.packed⟩
  change scales = some b at hb
  obtain rfl | rfl := hscales
  · -- scales pinned before: the range has not moved
    obtain hnone | ⟨rfl, rfl⟩ := hpinned
    · rw [hnone] at hb
      exact nomatch hb
    · exact hs.scales b hb
  · have hb := pinScales_ok hb
    rw [← hs.table]
    exact hb

theorem sources_attach (hs : Sources t s) {shard : Option (List UInt8)} {layerId : ℕ}
    {o : Option ℕ} {r : ℕ} (hshard : ∀ p, shard = some p → IsShard t p)
    (h : rowStoreAttachPacked s shard layerId o = .ok (s', r)) : Sources t s' := by
  obtain rfl | ⟨p, hp, rfl, _⟩ := rowStoreAttachPacked_ok h
  · exact hs
  · refine ⟨hs.table, hs.extent, hs.range, hs.scales, fun q hq => ?_⟩
    obtain rfl := Option.some.inj hq
    exact hshard p hp

end RowStore
end Dsv41Overlay
