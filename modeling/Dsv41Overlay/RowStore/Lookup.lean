import Dsv41Overlay.RowStore.Fetch

/-!
# A batch of lookups

`row_store_lookup` serves a batch of ids with the threads of a pool, or with the
caller alone. A thread claims the next index of the batch (a ticket, by one
`fetch_add`) and serves it: a negative id and an id outside the range give zeros,
an id that is not one of the table aborts, and any other is a call of `fetch_row`
whose row is copied to the slot of that index.

The batch returns when every index is claimed and no thread is serving. In every
configuration each claimed index is being served or its slot holds what it should
(`BatchOk.served`), so when the batch returns every slot does. An id that is not
one of the table is never settled, and no run with such an id returns.
-/

namespace Dsv41Overlay
namespace RowStore

/-- A batch: its ids, and a slot of weight and one of scale for each of them. -/
structure Work where
  store : Store
  ids : List ℤ
  weights : List (List UInt8)
  scales : List (List UInt8)
  /-- The first index that no thread has claimed. -/
  next : ℕ

/-- What a thread of the pool is serving: an index, and where its call stands. -/
abbrev Worker := Option (ℕ × Phase)

/-- The slots of an index, written. -/
def Work.write (w : Work) (i : ℕ) (weight scale : List UInt8) : Work :=
  { w with weights := w.weights.set i weight, scales := w.scales.set i scale }

/-- The slots of an index, cleared. -/
def Work.clear (w : Work) (i : ℕ) : Work :=
  w.write i (List.replicate kWeightBytes 0) (List.replicate kScaleBytes 0)

/-- One section of a thread: it claims a ticket, or goes on with the index it serves
(`serve`; what the tests read no section changes). -/
def serve (w : Work) (th : Worker) (o : Option ℕ × Option ℕ) :
    Option (Except String (Work × Worker)) :=
  match th with
  | none =>
    if w.next < w.ids.length then
      some (.ok ({ w with next := w.next + 1 }, some (w.next, .lookup)))
    else none
  | some (i, phase) =>
    match w.ids[i]? with
    | none => none
    | some id =>
      -- DEAD_ID=-1 stands for tokens that skip the lookup
      if id < 0 then some (.ok (w.clear i, none))
      else if w.store.rows ≤ id.toNat then some (.error "row ID out of bounds")
      else if ¬ w.store.Owns id.toNat then some (.ok (w.clear i, none))
      else
        match fetchRow w.store id.toNat phase o with
        | .error e => some (.error e)
        | .ok (s, .inl phase) => some (.ok ({ w with store := s }, some (i, phase)))
        -- the row is copied out in the two parts the kernels read
        | .ok (s, .inr row) =>
          some (.ok (({ w with store := s }).write i (slice row 0 kWeightBytes)
            (slice row kWeightBytes kScaleBytes), none))

/-- A batch before any thread has claimed a ticket. -/
def Work.start (s : Store) (ids : List ℤ) (weights scales : List (List UInt8)) : Work :=
  { store := s, ids, weights, scales, next := 0 }

/-- The runs of a batch on `n` threads. -/
def batch (w : Work) (n : ℕ) : System (Interleave Work Worker) (ℕ × (Option ℕ × Option ℕ)) :=
  Interleave.system (fun c => c = ⟨w, List.replicate n none⟩) serve

/-- Every ticket is claimed and every thread has left. -/
def Finished (c : Interleave Work Worker) : Prop :=
  c.shared.ids.length ≤ c.shared.next ∧ ∀ th ∈ c.threads, th = none

/-- `row_store_lookup` may return with the store and the slots of `w'`. -/
def Returns (w : Work) (n : ℕ) (w' : Work) : Prop :=
  ∃ c, (batch w n).Reachable c ∧ Finished c ∧ c.shared = w'

/-! ### What a section does -/

variable {t : Table} {s₀ s s' : Store} {w w' : Work} {th th' : Worker}
  {o : Option ℕ × Option ℕ}

/-- What a section of a call changes in the store. -/
theorem fetchRow_same {id : ℕ} {phase : Phase} {r : Phase ⊕ List UInt8}
    (h : fetchRow s id phase o = .ok (s', r)) :
    ∃ cache hits misses, s' = { s with cache, hits, misses } := by
  cases phase with
  | lookup =>
    simp only [fetchRow] at h
    split at h
    · exact ⟨_, _, _, (Prod.mk.inj (Except.ok.inj h)).1.symm⟩
    · exact ⟨_, _, _, (Prod.mk.inj (Except.ok.inj h)).1.symm⟩
  | read =>
    simp only [fetchRow] at h
    split at h
    · cases h
    · exact ⟨_, _, _, (Prod.mk.inj (Except.ok.inj h)).1.symm⟩
  | insert row => exact ⟨_, _, _, (Prod.mk.inj (Except.ok.inj h)).1.symm⟩

/-- **What a section of a thread is**: a ticket claimed, a slot cleared, or a section
of a call for an owned row. -/
theorem serve_cases (h : serve w th o = some (.ok (w', th'))) :
    (th = none ∧ w.next < w.ids.length ∧ w' = { w with next := w.next + 1 }
      ∧ th' = some (w.next, .lookup))
    ∨ ∃ i phase id, th = some (i, phase) ∧ w.ids[i]? = some id ∧
      ((id < 0 ∨ id.toNat < w.store.rows ∧ ¬ w.store.Owns id.toNat) ∧ w' = w.clear i ∧ th' = none
      ∨ (¬ id < 0 ∧ id.toNat < w.store.rows ∧ w.store.Owns id.toNat) ∧
        ∃ s r, fetchRow w.store id.toNat phase o = .ok (s, r) ∧ (w', th') = match r with
          | .inl phase => ({ w with store := s }, some (i, phase))
          | .inr row => (({ w with store := s }).write i (slice row 0 kWeightBytes)
              (slice row kWeightBytes kScaleBytes), none)) := by
  unfold serve at h
  split at h
  · -- an idle thread
    split at h
    · rename_i hnext
      obtain ⟨rfl, rfl⟩ := Prod.mk.inj (Except.ok.inj (Option.some.inj h))
      exact .inl ⟨rfl, hnext, rfl, rfl⟩
    · exact nomatch h
  rename_i i phase
  split at h
  · exact nomatch h
  rename_i id hid
  -- the branches of `serve`, in the order of its tests
  refine .inr ⟨i, phase, id, rfl, hid, ?_⟩
  split at h
  · rename_i hneg
    obtain ⟨rfl, rfl⟩ := Prod.mk.inj (Except.ok.inj (Option.some.inj h))
    exact .inl ⟨.inl hneg, rfl, rfl⟩
  rename_i hpos
  split at h
  · exact nomatch h
  rename_i hrows
  split at h
  · rename_i howns
    obtain ⟨rfl, rfl⟩ := Prod.mk.inj (Except.ok.inj (Option.some.inj h))
    exact .inl ⟨.inr ⟨Nat.lt_of_not_le hrows, howns⟩, rfl, rfl⟩
  rename_i howns
  refine .inr ⟨⟨hpos, Nat.lt_of_not_le hrows, not_not.mp howns⟩, ?_⟩
  split at h
  · exact nomatch h
  · rename_i s phase' hfetch
    obtain ⟨rfl, rfl⟩ := Prod.mk.inj (Except.ok.inj (Option.some.inj h))
    exact ⟨s, .inl phase', hfetch, rfl⟩
  · rename_i s row hfetch
    obtain ⟨rfl, rfl⟩ := Prod.mk.inj (Except.ok.inj (Option.some.inj h))
    exact ⟨s, .inr row, hfetch, rfl⟩

/-- A section of a call that goes on. -/
theorem serve_inl {i : ℕ} {id : ℤ} {phase phase' : Phase} (hid : w.ids[i]? = some id)
    (hpos : ¬ id < 0) (hrows : ¬ w.store.rows ≤ id.toNat) (hown : w.store.Owns id.toNat)
    (h : fetchRow w.store id.toNat phase o = .ok (s, .inl phase')) :
    serve w (some (i, phase)) o = some (.ok ({ w with store := s }, some (i, phase'))) := by
  simp only [serve, hid]
  rw [if_neg hpos, if_neg hrows, if_neg (not_not.mpr hown), h]

/-! ### What the slots hold -/

/-- What an id should give: zeros, or the weight and the scale of the checkpoint. -/
def expected (t : Table) (s : Store) (id : ℤ) : List UInt8 × List UInt8 :=
  if id < 0 ∨ ¬ s.Owns id.toNat then
    (List.replicate kWeightBytes 0, List.replicate kScaleBytes 0)
  else (t.weight id.toNat, t.scale id.toNat)

/-- The index `i` has been served: its id passed the test of the bound, and its slots
hold what it should give. -/
def Written (t : Table) (s : Store) (w : Work) (i : ℕ) : Prop :=
  ∃ id, w.ids[i]? = some id ∧ (id < 0 ∨ id.toNat < t.rows)
    ∧ w.weights[i]? = some (expected t s id).1 ∧ w.scales[i]? = some (expected t s id).2

/-- Writing the slots of an index that has them. -/
theorem written_write {i : ℕ} {id : ℤ} {weight scale : List UInt8} (hid : w.ids[i]? = some id)
    (hrows : id < 0 ∨ id.toNat < t.rows) (hw : i < w.weights.length) (hsc : i < w.scales.length)
    (h : expected t s id = (weight, scale)) : Written t s (w.write i weight scale) i := by
  refine ⟨id, hid, hrows, ?_, ?_⟩
  · rw [h]
    exact List.getElem?_set_self hw
  · rw [h]
    exact List.getElem?_set_self hsc

/-- Writing the slots of an index leaves the other slots alone. -/
theorem Written.write_of_ne {i j : ℕ} {weight scale : List UInt8} (h : Written t s w j)
    (hne : i ≠ j) : Written t s (w.write i weight scale) j := by
  obtain ⟨id, hid, hrows, hweight, hscale⟩ := h
  exact ⟨id, hid, hrows, (List.getElem?_set_ne hne).trans hweight,
    (List.getElem?_set_ne hne).trans hscale⟩

/-- The two parts of a row. -/
theorem slice_row (ht : t.Extent) {id : ℕ} (hid : id < t.rows) :
    slice (t.row id) 0 kWeightBytes = t.weight id
      ∧ slice (t.row id) kWeightBytes kScaleBytes = t.scale id := by
  have hw := Table.length_weight ht hid
  refine ⟨slice_append_self hw, ?_⟩
  have h := slice_append_right (t.weight id) (t.scale id) 0 kScaleBytes
  rw [hw, Nat.add_zero] at h
  rw [Table.row, h, slice_all (Table.length_scale ht hid)]

/-! ### The invariant -/

/-- The batch can be read from the right places: the shard is one for the range, or
nothing of the batch has to be read. -/
def Store.Ready (s : Store) (ids : List ℤ) : Prop :=
  s.Kept ∨ ∀ id ∈ ids, ¬ id < 0 → s.Owns id.toNat → (s.cache.lookup id.toNat).isSome

/-- A batch in order. -/
structure BatchOk (t : Table) (s₀ : Store) (ids : List ℤ) (c : Interleave Work Worker) : Prop where
  /-- The store is in order. -/
  caching : Caching t.row s₀.Kept s₀ c.shared.store
  /-- The ids are those of the batch. -/
  same_ids : c.shared.ids = ids
  /-- There is a slot for each id. -/
  weights : c.shared.weights.length = ids.length
  /-- There is a slot for each id. -/
  scales : c.shared.scales.length = ids.length
  /-- Tickets are indices of the batch. -/
  next_le : c.shared.next ≤ ids.length
  /-- What is being served has been claimed, and its call is in order. -/
  workers : ∀ i phase, some (i, phase) ∈ c.threads →
    i < c.shared.next ∧ ∀ id, ids[i]? = some id → PhaseOk t.row s₀.Kept id.toNat phase
  /-- What has been claimed is served, or being served. -/
  served : ∀ i < c.shared.next, Written t s₀ c.shared i ∨ ∃ phase, some (i, phase) ∈ c.threads

section Steps

variable {ids : List ℤ} {c : Interleave Work Worker} {k i : ℕ} {phase : Phase}

/-- A ticket claimed. -/
theorem batchOk_claim (hc : BatchOk t s₀ ids c) (hth : c.threads[k]? = some none)
    (hnext : c.shared.next < ids.length) :
    BatchOk t s₀ ids ⟨{ c.shared with next := c.shared.next + 1 },
      c.threads.set k (some (c.shared.next, .lookup))⟩ where
  caching := hc.caching
  same_ids := hc.same_ids
  weights := hc.weights
  scales := hc.scales
  next_le := hnext
  workers j phase hj := by
    obtain hj | hj := List.mem_or_eq_of_mem_set hj
    · obtain ⟨hlt, hphase⟩ := hc.workers j phase hj
      exact ⟨Nat.lt_succ_of_lt hlt, hphase⟩
    · obtain ⟨rfl, rfl⟩ := Prod.mk.inj (Option.some.inj hj)
      exact ⟨Nat.lt_succ_self _, fun _ _ => trivial⟩
  -- the new ticket is being served, the others are as they were
  served j hj := by
    obtain hj | rfl := Nat.lt_succ_iff_lt_or_eq.mp hj
    · obtain hdone | ⟨phase, hbusy⟩ := hc.served j hj
      · exact .inl hdone
      · exact .inr ⟨phase, Interleave.mem_set_of_ne hbusy hth nofun⟩
    · exact .inr ⟨.lookup, Interleave.mem_set_self _ hth⟩

/-- A call that goes on. -/
theorem batchOk_section (hc : BatchOk t s₀ ids c) (hth : c.threads[k]? = some (some (i, phase)))
    (hs : Caching t.row s₀.Kept s₀ s) {phase' : Phase}
    (hphase : ∀ id, ids[i]? = some id → PhaseOk t.row s₀.Kept id.toNat phase') :
    BatchOk t s₀ ids ⟨{ c.shared with store := s }, c.threads.set k (some (i, phase'))⟩ where
  caching := hs
  same_ids := hc.same_ids
  weights := hc.weights
  scales := hc.scales
  next_le := hc.next_le
  workers j phase'' hj := by
    obtain hj | hj := List.mem_or_eq_of_mem_set hj
    · exact hc.workers j phase'' hj
    · obtain ⟨rfl, rfl⟩ := Prod.mk.inj (Option.some.inj hj)
      exact ⟨(hc.workers _ _ (List.mem_of_getElem? hth)).1, hphase⟩
  served j hj := by
    obtain hdone | ⟨phase'', hbusy⟩ := hc.served j hj
    · exact .inl hdone
    · by_cases hji : j = i
      · subst hji
        exact .inr ⟨phase', Interleave.mem_set_self _ hth⟩
      · refine .inr ⟨phase'', Interleave.mem_set_of_ne hbusy hth fun heq => hji ?_⟩
        exact (Prod.mk.inj (Option.some.inj heq)).1

/-- An index served. -/
theorem batchOk_finish (hc : BatchOk t s₀ ids c) (hth : c.threads[k]? = some (some (i, phase)))
    (hs : Caching t.row s₀.Kept s₀ s) {id : ℤ} (hid : ids[i]? = some id)
    (hrows : id < 0 ∨ id.toNat < t.rows) {weight scale : List UInt8}
    (h : expected t s₀ id = (weight, scale)) :
    BatchOk t s₀ ids
      ⟨({ c.shared with store := s }).write i weight scale, c.threads.set k none⟩ where
  caching := hs
  same_ids := hc.same_ids
  weights := (List.length_set ..).trans hc.weights
  scales := (List.length_set ..).trans hc.scales
  next_le := hc.next_le
  workers j phase' hj := by
    obtain hj | hj := List.mem_or_eq_of_mem_set hj
    · exact hc.workers j phase' hj
    · exact nomatch hj
  served j hj := by
    have hlen : i < ids.length := (List.getElem?_eq_some_iff.mp hid).1
    -- index `i` is written, and no write reaches another index
    by_cases hji : i = j
    · subst hji
      exact .inl (written_write (by rw [← hc.same_ids] at hid; exact hid) hrows
        (by rw [← hc.weights] at hlen; exact hlen) (by rw [← hc.scales] at hlen; exact hlen) h)
    · obtain hdone | ⟨phase', hbusy⟩ := hc.served j hj
      · exact .inl (Written.write_of_ne (w := { c.shared with store := s }) hdone hji)
      · refine .inr ⟨phase', Interleave.mem_set_of_ne hbusy hth fun heq => hji ?_⟩
        exact (Prod.mk.inj (Option.some.inj heq)).1.symm

/-- **One turn keeps the batch in order.** -/
theorem batchOk_turn (hs₀ : Sources t s₀) (hready : s₀.Ready ids) (hc : BatchOk t s₀ ids c)
    {c' : Interleave Work Worker} (h : c.turn serve k o = some (.ok c')) :
    BatchOk t s₀ ids c' := by
  obtain ⟨th, w', th', hth, hrun, rfl⟩ := Interleave.turn_ok h
  -- the range and the table are those of the start
  obtain ⟨cache, hits, misses, hsame⟩ := hc.caching.same
  -- the rows of the table are known
  have hrows : c.shared.store.rows = t.rows := by rw [hsame, ← hs₀.table]
  have howns : ∀ k, c.shared.store.Owns k ↔ s₀.Owns k := fun k => by rw [hsame]; rfl
  obtain ⟨rfl, hnext, rfl, rfl⟩ | ⟨i, phase, id, rfl, hid, hcase⟩ := serve_cases hrun
  · rw [hc.same_ids] at hnext
    exact batchOk_claim hc hth hnext
  rw [hc.same_ids] at hid
  obtain ⟨hout, rfl, rfl⟩ | ⟨⟨hpos, hlt, hown⟩, s, r, hfetch, hr⟩ := hcase
  · -- zeros
    rw [hrows, howns] at hout
    refine batchOk_finish (s := c.shared.store) hc hth hc.caching hid ?_ ?_
    · exact hout.imp_right And.left
    · rw [expected, if_pos (hout.imp_right And.right)]
  · rw [hrows] at hlt
    rw [howns] at hown
    -- an owned id finds the shard in order, or its row in the cache
    have hhit : s₀.Kept ∨ (s₀.cache.lookup id.toNat).isSome :=
      hready.imp_right fun h => h id (List.mem_of_getElem? hid) hpos hown
    obtain ⟨hcaching, hres, _⟩ := fetchRow_ok
      (fun hk _ _ h => readRow_ok hs₀ hk hown h) hhit hc.caching
      ((hc.workers i phase (List.mem_of_getElem? hth)).2 id hid) hfetch
    cases r with
    | inl phase' =>
      obtain ⟨rfl, rfl⟩ := Prod.mk.inj hr
      refine batchOk_section hc hth hcaching fun id' hid' => ?_
      obtain rfl : id = id' := Option.some.inj (hid.symm.trans hid')
      exact hres
    | inr row =>
      obtain ⟨rfl, rfl⟩ := Prod.mk.inj hr
      obtain rfl : row = t.row id.toNat := hres
      obtain ⟨hweight, hscale⟩ := slice_row hs₀.extent hlt
      rw [hweight, hscale]
      refine batchOk_finish hc hth hcaching hid (.inr hlt) ?_
      rw [expected, if_neg (by rw [not_or, not_not]; exact ⟨hpos, hown⟩)]

end Steps

/-! ### Runs -/

variable {ids : List ℤ} {weights scales : List (List UInt8)} {n : ℕ}

/-- **What a batch that returns has written**: every id is one of the table or
negative, and its slots hold what it should give. The store is in order. -/
theorem returns_ok (hs : Sources t s) (hcache : s.cache.Coherent t.row) (hready : s.Ready ids)
    (hw : weights.length = ids.length) (hsc : scales.length = ids.length)
    (h : Returns (.start s ids weights scales) n w) :
    Caching t.row s.Kept s w.store ∧ w.ids = ids ∧ ∀ i < ids.length, Written t s w i := by
  obtain ⟨c, hreach, ⟨hnext, hidle⟩, rfl⟩ := h
  have hc : BatchOk t s ids c := by
    refine hreach.invariant (I := BatchOk t s ids) (fun c h₀ => ?_)
      fun c l c' hc hstep => batchOk_turn hs hready hc hstep
    obtain rfl : c = ⟨.start s ids weights scales, List.replicate n none⟩ := h₀
    exact ⟨caching_start hcache, rfl, hw, hsc, Nat.zero_le _,
      fun _ _ hmem => (nomatch List.eq_of_mem_replicate hmem), fun _ hlt => (nomatch hlt)⟩
  refine ⟨hc.caching, hc.same_ids, fun i hi => ?_⟩
  rw [hc.same_ids] at hnext
  -- every ticket is claimed and no thread is left, so each index is written
  obtain hdone | ⟨phase, hbusy⟩ := hc.served i (Nat.lt_of_lt_of_le hi hnext)
  · exact hdone
  · exact nomatch hidle _ hbusy

/-! ### Negative ids

Their slots are cleared whatever the store is like. -/

/-- The slots of claimed negative ids hold zeros, or are about to. -/
structure Clearing (ids : List ℤ) (c : Interleave Work Worker) : Prop where
  /-- The ids are those of the batch. -/
  same_ids : c.shared.ids = ids
  /-- There is a slot for each id. -/
  weights : c.shared.weights.length = ids.length
  /-- There is a slot for each id. -/
  scales : c.shared.scales.length = ids.length
  /-- A claimed negative id has been cleared, or is being served. -/
  cleared : ∀ i < c.shared.next, ∀ id, ids[i]? = some id → id < 0 →
    (c.shared.weights[i]? = some (List.replicate kWeightBytes 0)
      ∧ c.shared.scales[i]? = some (List.replicate kScaleBytes 0))
    ∨ ∃ phase, some (i, phase) ∈ c.threads

section Clearing

variable {c c' : Interleave Work Worker} {k : ℕ}

/-- Writing the slots of the index that a thread serves, when it is not a negative id
or the slots are cleared. -/
theorem clearing_write (hc : Clearing ids c) {i : ℕ} {phase : Phase} {id : ℤ} {s : Store}
    {weight scale : List UInt8} (hth : c.threads[k]? = some (some (i, phase)))
    (hid : ids[i]? = some id)
    (h : id < 0 → weight = List.replicate kWeightBytes 0 ∧ scale = List.replicate kScaleBytes 0) :
    Clearing ids ⟨({ c.shared with store := s }).write i weight scale, c.threads.set k none⟩ where
  same_ids := hc.same_ids
  weights := (List.length_set ..).trans hc.weights
  scales := (List.length_set ..).trans hc.scales
  cleared j hj id' hid' hneg := by
    have hlen : i < ids.length := (List.getElem?_eq_some_iff.mp hid).1
    by_cases hij : i = j
    · subst hij
      obtain rfl : id = id' := Option.some.inj (hid.symm.trans hid')
      obtain ⟨rfl, rfl⟩ := h hneg
      left
      exact ⟨List.getElem?_set_self (hc.weights ▸ hlen), List.getElem?_set_self (hc.scales ▸ hlen)⟩
    · obtain ⟨hw, hs⟩ | ⟨phase', hbusy⟩ := hc.cleared j hj id' hid' hneg
      · left
        exact ⟨(List.getElem?_set_ne hij).trans hw, (List.getElem?_set_ne hij).trans hs⟩
      · refine Or.inr ⟨phase', Interleave.mem_set_of_ne hbusy hth fun heq => hij ?_⟩
        exact (Prod.mk.inj (Option.some.inj heq)).1.symm

/-- **One turn keeps the negative ids cleared.** -/
theorem clearing_turn (hc : Clearing ids c) (h : c.turn serve k o = some (.ok c')) :
    Clearing ids c' := by
  obtain ⟨th, w', th', hth, hrun, rfl⟩ := Interleave.turn_ok h
  obtain ⟨rfl, -, rfl, rfl⟩ | ⟨i, phase, id, rfl, hid, hcase⟩ := serve_cases hrun
  · -- a ticket claimed
    refine ⟨hc.same_ids, hc.weights, hc.scales, ?_⟩
    intro j hj id hid hneg
    -- the tickets that were claimed before, and the new one
    obtain hj | rfl := Nat.lt_succ_iff_lt_or_eq.mp hj
    · obtain hdone | ⟨phase, hbusy⟩ := hc.cleared j hj id hid hneg
      · exact Or.inl hdone
      · exact Or.inr ⟨phase, Interleave.mem_set_of_ne hbusy hth nofun⟩
    · exact Or.inr ⟨.lookup, Interleave.mem_set_self _ hth⟩
  rw [hc.same_ids] at hid
  obtain ⟨-, rfl, rfl⟩ | ⟨⟨hpos, -, -⟩, s, r, hfetch, hr⟩ := hcase
  -- a negative id is cleared at once
  · exact clearing_write (s := c.shared.store) hc hth hid fun _ => ⟨rfl, rfl⟩
  · cases r with
    | inl phase' =>
      obtain ⟨rfl, rfl⟩ := Prod.mk.inj hr
      refine ⟨hc.same_ids, hc.weights, hc.scales, ?_⟩
      intro j hj id' hid' hneg
      obtain hdone | ⟨phase'', hbusy⟩ := hc.cleared j hj id' hid' hneg
      · exact Or.inl hdone
      -- the index of this worker, or that of another
      · by_cases hji : j = i
        · subst hji
          exact Or.inr ⟨phase', Interleave.mem_set_self _ hth⟩
        · refine Or.inr ⟨phase'', Interleave.mem_set_of_ne hbusy hth fun heq => hji ?_⟩
          exact (Prod.mk.inj (Option.some.inj heq)).1
    | inr row =>
      obtain ⟨rfl, rfl⟩ := Prod.mk.inj hr
      exact clearing_write hc hth hid fun hneg => absurd hneg hpos

/-- **A negative id gives zeros**, from any store and with any number of threads. -/
theorem returns_zeros (hw : weights.length = ids.length) (hsc : scales.length = ids.length)
    (h : Returns (.start s ids weights scales) n w) {i : ℕ} {id : ℤ} (hid : ids[i]? = some id)
    (hneg : id < 0) :
    w.weights[i]? = some (List.replicate kWeightBytes 0)
      ∧ w.scales[i]? = some (List.replicate kScaleBytes 0) := by
  obtain ⟨c, hreach, ⟨hnext, hidle⟩, rfl⟩ := h
  have hc : Clearing ids c := by
    apply hreach.invariant (I := Clearing ids)
    · intro c h₀
      obtain rfl : c = ⟨.start s ids weights scales, List.replicate n none⟩ := h₀
      exact ⟨rfl, hw, hsc, fun i hi => (nomatch hi)⟩
    · intro c l c' hc hstep
      exact clearing_turn hc hstep
  rw [hc.same_ids] at hnext
  have hlt : i < ids.length := (List.getElem?_eq_some_iff.mp hid).1
  obtain hdone | ⟨phase, hbusy⟩ := hc.cleared i (hlt.trans_le hnext) id hid hneg
  · exact hdone
  · exact nomatch hidle _ hbusy

end Clearing

/-! ### Ids that are not of the table

The thread that serves such an id can only abort, so its index is never settled. The
other threads can go on for a while, but each turn uses up a ticket or a section. -/

/-- The sections a thread may still run for the index it serves. -/
def sections : Worker → ℕ
  | none => 0
  | some (_, .lookup) => 3
  | some (_, .read) => 2
  | some (_, .insert _) => 1

/-- The turns a batch may still take. -/
def remaining (c : Interleave Work Worker) : ℕ :=
  4 * (c.shared.ids.length - c.shared.next) + (c.threads.map sections).sum

/-- A section of a call that goes on brings it closer to its end. -/
theorem fetchRow_sections {id i : ℕ} {phase phase' : Phase}
    (h : fetchRow s id phase o = .ok (s', .inl phase')) :
    sections (some (i, phase')) < sections (some (i, phase)) := by
  cases phase with
  | lookup =>
    simp only [fetchRow] at h
    split at h
    · cases h
    · obtain rfl := Sum.inl.inj (Prod.mk.inj (Except.ok.inj h)).2
      exact Nat.lt_succ_self _
  | read =>
    simp only [fetchRow] at h
    split at h
    · cases h
    · obtain rfl := Sum.inl.inj (Prod.mk.inj (Except.ok.inj h)).2
      exact Nat.lt_succ_self _
  | insert row => cases h

/-- The index `i` of the batch has an id that is not of the table, and it is not
settled. -/
structure Pending (ids : List ℤ) (rows i : ℕ) (c : Interleave Work Worker) : Prop where
  /-- The ids are those of the batch. -/
  same_ids : c.shared.ids = ids
  /-- The table is that of the batch. -/
  same_rows : c.shared.store.rows = rows
  /-- The id at `i` fails the test of the bound. -/
  outside : ∃ id, ids[i]? = some id ∧ ¬ id < 0 ∧ rows ≤ id.toNat
  /-- There is a thread. -/
  threads : c.threads ≠ []
  /-- Threads serve indices of the batch. -/
  workers : ∀ j phase, some (j, phase) ∈ c.threads → j < ids.length
  /-- The index is unclaimed or being served. -/
  pending : c.shared.next ≤ i ∨ ∃ phase, some (i, phase) ∈ c.threads

section Pending

variable {rows i k : ℕ} {c c' : Interleave Work Worker}

/-- A thread at work can take its turn. -/
theorem serve_isSome {j : ℕ} {phase : Phase} (hj : j < w.ids.length) :
    (serve w (some (j, phase)) o).isSome := by
  simp only [serve, List.getElem?_eq_getElem hj]
  split
  · rfl
  split
  · rfl
  split
  · rfl
  split <;> rfl

/-- While an index is pending some thread can take its turn. -/
theorem pending_live (hc : Pending ids rows i c) : ∃ k o, (c.turn serve k o).isSome := by
  by_cases hbusy : ∃ j phase, some (j, phase) ∈ c.threads
  -- a thread that is busy can always go on
  · obtain ⟨j, phase, hmem⟩ := hbusy
    obtain ⟨k, hk⟩ := List.mem_iff_getElem?.mp hmem
    refine ⟨k, (none, none), Interleave.turn_isSome hk (serve_isSome ?_)⟩
    rw [hc.same_ids]
    exact hc.workers j phase hmem
  · -- every thread is idle: the first of them can claim a ticket
    obtain ⟨th, hth⟩ := List.exists_mem_of_ne_nil _ hc.threads
    obtain ⟨k, hk⟩ := List.mem_iff_getElem?.mp hth
    have hidle : th = none := by
      cases th with
      | none => rfl
      | some p => exact absurd ⟨p.1, p.2, hth⟩ hbusy
    subst hidle
    obtain ⟨id, hid, _⟩ := hc.outside
    have hlt : i < ids.length := (List.getElem?_eq_some_iff.mp hid).1
    have hnext : c.shared.next ≤ i := hc.pending.resolve_right fun ⟨phase, h⟩ => hbusy ⟨i, phase, h⟩
    refine ⟨k, (none, none), Interleave.turn_isSome hk ?_⟩
    simp only [serve]
    rw [if_pos (by rw [hc.same_ids]; omega)]
    rfl

/-- **A turn leaves the index pending** and uses up the batch. -/
theorem pending_turn (hc : Pending ids rows i c) (h : c.turn serve k o = some (.ok c')) :
    Pending ids rows i c' ∧ remaining c' < remaining c := by
  obtain ⟨th, w', th', hth, hrun, rfl⟩ := Interleave.turn_ok h
  have hthreads : c.threads.set k th' ≠ [] := List.ne_nil_of_mem (Interleave.mem_set_self th' hth)
  have hsum := Interleave.sum_map_set sections th' hth
  obtain ⟨rfl, hnext, rfl, rfl⟩ | ⟨j, phase, id, rfl, hid, hcase⟩ := serve_cases hrun
  · -- a ticket
    refine ⟨⟨hc.same_ids, hc.same_rows, hc.outside, hthreads, fun j phase hj => ?_, ?_⟩, ?_⟩
    -- a worker works on an index below the number of ids
    · obtain hj | hj := List.mem_or_eq_of_mem_set hj
      · exact hc.workers j phase hj
      · obtain ⟨rfl, _⟩ := Prod.mk.inj (Option.some.inj hj)
        rw [← hc.same_ids]
        exact hnext
    -- the ticket of the bad index is claimed now, or is still to come
    · obtain hle | ⟨phase, hbusy⟩ := hc.pending
      · obtain hlt | rfl := Nat.lt_or_eq_of_le hle
        · exact .inl hlt
        · exact .inr ⟨.lookup, Interleave.mem_set_self _ hth⟩
      · exact .inr ⟨phase, Interleave.mem_set_of_ne hbusy hth nofun⟩
    · simp only [remaining, sections] at hsum ⊢
      omega
  · -- a section for another index: the one at `i` can only abort
    rw [hc.same_ids] at hid
    have hne : i ≠ j := by
      rintro rfl
      obtain ⟨id', hid', hpos, hrows⟩ := hc.outside
      obtain rfl : id = id' := Option.some.inj (hid.symm.trans hid')
      rw [hc.same_rows] at hcase
      obtain ⟨hneg | ⟨hlt, _⟩, _⟩ | ⟨⟨_, hlt, _⟩, _⟩ := hcase <;> omega
    have hpending : ∀ th', c.shared.next ≤ i ∨ ∃ phase, some (i, phase) ∈ c.threads.set k th' := by
      intro th'
      refine hc.pending.imp_right fun ⟨phase, hbusy⟩ => ⟨phase, ?_⟩
      refine Interleave.mem_set_of_ne hbusy hth fun heq => hne ?_
      exact (Prod.mk.inj (Option.some.inj heq)).1
    have hpos : 0 < sections (some (j, phase)) := by
      cases phase <;> exact Nat.succ_pos _
    -- the worker becomes idle
    have hidle : ∀ j' phase', some (j', phase') ∈ c.threads.set k none → j' < ids.length := by
      intro j' phase' hmem
      obtain hmem | hmem := List.mem_or_eq_of_mem_set hmem
      · exact hc.workers j' phase' hmem
      · exact nomatch hmem
    obtain ⟨_, rfl, rfl⟩ | ⟨_, s', r, hfetch, hr⟩ := hcase
    · refine ⟨⟨hc.same_ids, hc.same_rows, hc.outside, hthreads, hidle, hpending _⟩, ?_⟩
      simp only [remaining, Work.clear, Work.write, sections] at hsum hpos ⊢
      omega
    -- one section further
    · obtain ⟨cache, hits, misses, rfl⟩ := fetchRow_same hfetch
      cases r with
      | inl phase' =>
        obtain ⟨rfl, rfl⟩ := Prod.mk.inj hr
        refine ⟨⟨hc.same_ids, hc.same_rows, hc.outside, hthreads, fun j' phase'' hmem => ?_,
          hpending _⟩, ?_⟩
        · obtain hmem | hmem := List.mem_or_eq_of_mem_set hmem
          · exact hc.workers j' phase'' hmem
          · obtain ⟨rfl, _⟩ := Prod.mk.inj (Option.some.inj hmem)
            exact (List.getElem?_eq_some_iff.mp hid).1
        · have hlt := fetchRow_sections (i := j) hfetch
          simp only [remaining] at hsum ⊢
          omega
      | inr row =>
        obtain ⟨rfl, rfl⟩ := Prod.mk.inj hr
        refine ⟨⟨hc.same_ids, hc.same_rows, hc.outside, hthreads, hidle, hpending _⟩, ?_⟩
        simp only [remaining, Work.write] at hsum ⊢
        simp only [sections] at hsum hpos ⊢
        omega

/-- **An id that is not of the table aborts**: every run of the batch ends in an
abort, whatever the threads do and whatever the reads give. -/
theorem batch_doomed {id : ℤ} (hid : id ∈ ids) (hpos : ¬ id < 0) (hrows : s.rows ≤ id.toNat)
    (hn : 0 < n) :
    Interleave.Doomed serve ⟨.start s ids weights scales, List.replicate n none⟩ := by
  obtain ⟨i, hi⟩ := List.mem_iff_getElem?.mp hid
  refine Interleave.doomed_of_measure (I := Pending ids s.rows i) remaining
    (fun c hc => pending_live hc) (fun c k o c' hc h => pending_turn hc h) ?_
  refine ⟨rfl, rfl, ⟨id, hi, hpos, hrows⟩, ?_, fun _ _ h => (nomatch List.eq_of_mem_replicate h),
    .inl (Nat.zero_le _)⟩
  obtain ⟨n, rfl⟩ := Nat.exists_eq_add_of_lt hn
  exact nofun

end Pending

end RowStore
end Dsv41Overlay
