import Dsv41Overlay.Lib.Interleave
import Dsv41Overlay.RowStore.Store

/-!
# Fetching rows through the cache

`fetch_row` looks a row up under its set's lock, reads it without a lock when it
is not there, and then takes the lock again to insert it. Between the sections
any other thread may run: two threads may read and insert one row, and a row may
be evicted while another thread is about to insert it.

`fetchRow` is one section of one call, and `fetches` any number of threads that
run calls. What every section keeps is `Caching`: the cache is coherent with the
rows, and nothing but the cache and the counters has changed. A call carries
`PhaseOk`: the row it is about to insert is its row. One lemma about a section
(`fetchRow_ok`) gives both, and the account of hits and misses with them; the
rules for threads do the rest.

All of this is for any `row` that the reads agree with; the bytes at the places
that rows are read from (`Store.source`) are one, the rows of the table another.
-/

namespace Dsv41Overlay
namespace RowStore

/-! ### The sections of a call -/

/-- Where a call of `fetch_row` stands: before its lookup, before its read, or before
its insertion of the row it has read. -/
inductive Phase
  | lookup
  | read
  | insert (row : List UInt8)

/-- One section of `fetch_row`: the call goes on in another phase or returns the row. -/
def fetchRow (s : Store) (id : ℕ) (phase : Phase) (o : Option ℕ × Option ℕ) :
    Except String (Store × (Phase ⊕ List UInt8)) :=
  match phase with
  | .lookup =>
    match s.cache.lookup id with
    | some row => .ok ({ s with hits := s.hits + 1 }, .inr row)
    | none => .ok (s, .inl .read)
  | .read =>
    -- outside the lock, so same-set misses overlap on the drive
    match readRow s id o with
    | .error e => .error e
    | .ok row => .ok ({ s with misses := s.misses + 1 }, .inl (.insert row))
  | .insert row => .ok ({ s with cache := s.cache.insert id row }, .inr row)

/-- The lock of a row: sets share 256 locks. -/
def lock (s : Store) (id : ℕ) : ℕ := (if s.cache.sets = 0 then 0 else id % s.cache.sets) % 256

/-- **Striped locks are enough**: sections under different locks do not see each
other, whichever runs first, so that a locked section is one turn. -/
theorem sections_independent {s : Store} (hways : 0 < s.cache.ways) {a b : ℕ}
    (hlock : lock s a ≠ lock s b) (ra rb : List UInt8) :
    (s.cache.insert a ra).lookup b = s.cache.lookup b
      ∧ (s.cache.insert a ra).insert b rb = (s.cache.insert b rb).insert a ra := by
  have hset : a % s.cache.sets ≠ b % s.cache.sets := by
    intro heq
    exact hlock (by rw [lock, lock, heq])
  exact ⟨SetCache.lookup_insert_of_ne hways ra hset, SetCache.insert_comm hways ra rb hset⟩

/-! ### What a section keeps -/

/-- The store `s` has come from `s₀` by sections of calls, and its cache is coherent
with the rows. No row has been read if the reads cannot be `trusted`. -/
structure Caching (row : ℕ → List UInt8) (trusted : Prop) (s₀ s : Store) : Prop where
  /-- Only the cache and the counters have changed. -/
  same : ∃ cache hits misses, s = { s₀ with cache, hits, misses }
  /-- The cache holds rows. -/
  coherent : s.cache.Coherent row
  /-- Rows are inserted only when they can be read. -/
  frozen : trusted ∨ s.cache = s₀.cache

/-- What a call knows in each phase. -/
def PhaseOk (row : ℕ → List UInt8) (trusted : Prop) (id : ℕ) : Phase → Prop
  | .lookup => True
  | .read => trusted
  | .insert r => trusted ∧ r = row id

/-- What a section leaves: a call in its next phase, or the row. -/
def ResultOk (row : ℕ → List UInt8) (trusted : Prop) (id : ℕ) : Phase ⊕ List UInt8 → Prop
  | .inl phase => PhaseOk row trusted id phase
  | .inr r => r = row id

/-- Whether a call in this phase is counted as a hit or a miss already. -/
def Phase.counted : Phase → ℕ
  | .insert _ => 1
  | _ => 0

/-- Whether a call with this result is counted. -/
def counted : Phase ⊕ List UInt8 → ℕ
  | .inl phase => phase.counted
  | .inr _ => 1

variable {row : ℕ → List UInt8} {trusted : Prop} {s₀ s s' : Store} {id : ℕ} {phase : Phase}

/-- Reading a row in a later store is reading it in the first one. -/
theorem readRow_same (h : ∃ cache hits misses, s = { s₀ with cache, hits, misses }) (id : ℕ)
    (o : Option ℕ × Option ℕ) : readRow s id o = readRow s₀ id o := by
  obtain ⟨cache, hits, misses, rfl⟩ := h
  rfl

/-- **One section**: it keeps `Caching`, it leaves the call in order or returns its
row, and it counts the call once. -/
theorem fetchRow_ok (hread : trusted → ∀ o r, readRow s₀ id o = .ok r → r = row id)
    (hhit : trusted ∨ (s₀.cache.lookup id).isSome) (hs : Caching row trusted s₀ s)
    (hp : PhaseOk row trusted id phase) {o : Option ℕ × Option ℕ} {r : Phase ⊕ List UInt8}
    (h : fetchRow s id phase o = .ok (s', r)) :
    Caching row trusted s₀ s' ∧ ResultOk row trusted id r
      ∧ s'.hits + s'.misses + phase.counted = s.hits + s.misses + counted r := by
  obtain ⟨cache, hits, misses, hsame⟩ := hs.same
  -- one case for each section of the call
  cases phase with
  | lookup =>
    simp only [fetchRow] at h
    cases hlook : s.cache.lookup id with
    | some r =>
      rw [hlook] at h
      obtain ⟨rfl, rfl⟩ := Prod.mk.inj (Except.ok.inj h)
      -- a hit: the cache is coherent
      refine ⟨⟨⟨cache, hits + 1, misses, by rw [hsame]⟩, hs.coherent, hs.frozen⟩,
        SetCache.lookup_coherent hs.coherent hlook, ?_⟩
      simp only [Phase.counted, counted]
      omega
    | none =>
      rw [hlook] at h
      obtain ⟨rfl, rfl⟩ := Prod.mk.inj (Except.ok.inj h)
      refine ⟨hs, ?_, rfl⟩
      -- a miss in an untouched cache: the call did not have to be one
      obtain hk | hhit := hhit
      · exact hk
      · obtain hk | hcache := hs.frozen
        · exact hk
        · rw [hcache] at hlook
          rw [hlook] at hhit
          exact nomatch hhit
  -- what is read is the row: the call was allowed to read
  | read =>
    simp only [fetchRow] at h
    cases hr : readRow s id o with
    | error e => rw [hr] at h; exact nomatch h
    | ok r =>
      rw [hr] at h
      obtain ⟨rfl, rfl⟩ := Prod.mk.inj (Except.ok.inj h)
      rw [readRow_same hs.same] at hr
      refine ⟨⟨⟨cache, hits, misses + 1, by rw [hsame]⟩, hs.coherent, hs.frozen⟩,
        ⟨hp, hread hp o r hr⟩, ?_⟩
      simp only [Phase.counted, counted]
      omega
  | insert r =>
    obtain ⟨rfl, rfl⟩ := Prod.mk.inj (Except.ok.inj h)
    obtain ⟨htrusted, rfl⟩ := hp
    -- the row that was read joins the cache
    exact ⟨⟨⟨s.cache.insert id (row id), hits, misses, by rw [hsame]⟩,
      SetCache.insert_coherent hs.coherent id, .inl htrusted⟩, rfl, rfl⟩

/-! ### Threads -/

/-- A thread that calls `fetch_row`: the calls to make, the first of them under way,
and what the finished ones returned. -/
structure Caller where
  calls : List ℕ
  phase : Phase
  returned : List (ℕ × List UInt8)

/-- A thread that has not made a call. -/
def Caller.start (calls : List ℕ) : Caller := ⟨calls, .lookup, []⟩

/-- The next section of a thread. -/
def Caller.section (s : Store) (th : Caller) (o : Option ℕ × Option ℕ) :
    Option (Except String (Store × Caller)) :=
  match th.calls with
  | [] => none
  | id :: calls =>
    match fetchRow s id th.phase o with
    | .error e => some (.error e)
    | .ok (s, .inl phase) => some (.ok (s, { th with phase }))
    | .ok (s, .inr row) =>
      some (.ok (s, { calls, phase := .lookup, returned := th.returned ++ [(id, row)] }))

/-- Threads that fetch rows from one store, each the rows of its own program, in any
order of their sections. -/
def fetches (s : Store) (programs : List (List ℕ)) :
    System (Interleave Store Caller) (ℕ × (Option ℕ × Option ℕ)) :=
  Interleave.system (fun c => c = ⟨s, programs.map Caller.start⟩) Caller.section

/-- A thread in order: it has returned rows, and the call under way is in order. -/
structure Caller.Ok (row : ℕ → List UInt8) (owned : ℕ → Prop) (th : Caller) : Prop where
  /-- The finished calls returned their rows. -/
  returned : ∀ id r, (id, r) ∈ th.returned → r = row id
  /-- The calls to come are for owned rows. -/
  owns : ∀ id ∈ th.calls, owned id
  /-- The call under way is in order. -/
  underWay : ∀ id calls, th.calls = id :: calls → PhaseOk row True id th.phase
  /-- A thread without a call is in no phase of one. -/
  idle : th.calls = [] → th.phase.counted = 0

/-- How many calls of a thread are counted. -/
def Caller.account (th : Caller) : ℕ := th.returned.length + th.phase.counted

/-- The program of a thread: what it has called and what it will call. -/
def Caller.program (th : Caller) : List ℕ := th.returned.map Prod.fst ++ th.calls

/-- What a section of a thread is: a section of its first call. -/
theorem section_cases {th th' : Caller} {o : Option ℕ × Option ℕ}
    (h : th.section s o = some (.ok (s', th'))) :
    ∃ id calls r, th.calls = id :: calls ∧ fetchRow s id th.phase o = .ok (s', r)
      ∧ th' = match r with
        | .inl phase => { th with phase }
        | .inr row => ⟨calls, .lookup, th.returned ++ [(id, row)]⟩ := by
  unfold Caller.section at h
  split at h
  · exact nomatch h
  rename_i id calls hcalls
  split at h
  · exact nomatch h
  · rename_i s₁ phase hfetch
    obtain ⟨rfl, rfl⟩ := Prod.mk.inj (Except.ok.inj (Option.some.inj h))
    exact ⟨id, calls, .inl phase, hcalls, hfetch, rfl⟩
  · rename_i s₁ row hfetch
    obtain ⟨rfl, rfl⟩ := Prod.mk.inj (Except.ok.inj (Option.some.inj h))
    exact ⟨id, calls, .inr row, hcalls, hfetch, rfl⟩

/-- The reads of the owned rows agree with `row`. -/
def Reads (s : Store) (row : ℕ → List UInt8) (owned : ℕ → Prop) : Prop :=
  ∀ id, owned id → ∀ o r, readRow s id o = .ok r → r = row id

/-- **One section of a thread** keeps the store and the thread in order and the
account balanced. -/
theorem section_ok {owned : ℕ → Prop} (hread : Reads s₀ row owned)
    (hs : Caching row True s₀ s) {th th' : Caller}
    (hth : th.Ok row owned) {o : Option ℕ × Option ℕ} (h : th.section s o = some (.ok (s', th'))) :
    (Caching row True s₀ s' ∧ th'.Ok row owned)
      ∧ s'.hits + s'.misses + th.account = s.hits + s.misses + th'.account := by
  obtain ⟨id, calls, r, hcalls, hfetch, rfl⟩ := section_cases h
  have hid : id ∈ th.calls := by rw [hcalls]; exact List.mem_cons_self
  obtain ⟨hs', hr, hcount⟩ := fetchRow_ok (fun _ => hread id (hth.owns id hid)) (.inl trivial) hs
    (hth.underWay id calls hcalls) hfetch
  -- the call goes on, or its row joins what the thread has got
  cases r with
  | inl phase =>
    refine ⟨⟨hs', ⟨hth.returned, hth.owns, fun id' calls' heq => ?_, fun hnil => ?_⟩⟩, ?_⟩
    -- the call under way is the same one
    · obtain ⟨rfl, rfl⟩ := List.cons.inj (hcalls.symm.trans heq)
      exact hr
    · rw [hcalls] at hnil
      exact nomatch hnil
    · simp only [Caller.account, counted] at hcount ⊢
      omega
  | inr r =>
    refine ⟨⟨hs', ⟨fun id' r' hmem => ?_, fun id' hid' => ?_, fun _ _ _ => trivial,
      fun _ => rfl⟩⟩, ?_⟩
    -- the row that was returned is that of its id
    · obtain hmem | hmem := List.mem_append.mp hmem
      · exact hth.returned id' r' hmem
      · obtain ⟨rfl, rfl⟩ := Prod.mk.inj (List.mem_singleton.mp hmem)
        exact hr
    · exact hth.owns id' (by rw [hcalls]; exact List.mem_cons_of_mem _ hid')
    · simp only [Caller.account, counted, Phase.counted, List.length_append,
        List.length_singleton] at hcount ⊢
      omega

/-- A section of a thread leaves its program alone. -/
theorem section_program {th th' : Caller} {o : Option ℕ × Option ℕ}
    (h : th.section s o = some (.ok (s', th'))) : th'.program = th.program := by
  obtain ⟨id, calls, r, hcalls, _, rfl⟩ := section_cases h
  cases r with
  | inl phase => rfl
  | inr row => simp [Caller.program, hcalls]

/-! ### Runs -/

section Runs

variable {owned : ℕ → Prop} {programs : List (List ℕ)} {c : Interleave Store Caller}

/-- A store is in order before any call. -/
theorem caching_start (hc : s.cache.Coherent row) : Caching row trusted s s :=
  ⟨⟨s.cache, s.hits, s.misses, rfl⟩, hc, .inr rfl⟩

/-- A thread is in order before any call. -/
theorem start_ok {calls : List ℕ} (hown : ∀ id ∈ calls, owned id) :
    (Caller.start calls).Ok row owned :=
  ⟨fun _ _ h => (nomatch h), hown, fun _ _ _ => trivial, fun _ => rfl⟩

/-- The threads are in order at the start. -/
theorem fetches_init (hc : s.cache.Coherent row) (hown : ∀ p ∈ programs, ∀ id ∈ p, owned id)
    (h : c = ⟨s, programs.map Caller.start⟩) :
    Caching row True s c.shared ∧ ∀ th ∈ c.threads, th.Ok row owned := by
  subst h
  refine ⟨caching_start hc, fun th hth => ?_⟩
  obtain ⟨p, hp, rfl⟩ := List.mem_map.mp hth
  exact start_ok (hown p hp)

/-- In every configuration the store and the threads are in order. -/
theorem fetches_ok (hread : Reads s row owned) (hc : s.cache.Coherent row)
    (hown : ∀ p ∈ programs, ∀ id ∈ p, owned id) (h : (fetches s programs).Reachable c) :
    Caching row True s c.shared ∧ ∀ th ∈ c.threads, th.Ok row owned :=
  Interleave.forall_invariant (fun _ h₀ => fetches_init hc hown h₀)
    (fun _ _ _ _ _ hG hK hrun => (section_ok hread hG hK hrun).1) h

/-- In every configuration hits and misses are the calls that have been counted. -/
theorem fetches_account (hread : Reads s row owned) (hc : s.cache.Coherent row)
    (hown : ∀ p ∈ programs, ∀ id ∈ p, owned id) (h : (fetches s programs).Reachable c) :
    c.shared.hits + c.shared.misses
      = s.hits + s.misses + (c.threads.map Caller.account).sum := by
  refine Interleave.sum_invariant (g := fun s => s.hits + s.misses) (fun c h₀ => ?_)
    (fun _ _ _ _ _ hG hK hrun => section_ok hread hG hK hrun) h
  refine ⟨fetches_init hc hown h₀, ?_⟩
  obtain rfl : c = ⟨s, programs.map Caller.start⟩ := h₀
  -- no call is counted yet
  have hzero : Caller.account ∘ Caller.start = fun _ => 0 := rfl
  rw [List.map_map, hzero, List.map_const', List.sum_replicate]
  rfl

/-- In every configuration a thread has its program. -/
theorem fetches_program (h : (fetches s programs).Reachable c) :
    c.threads.map Caller.program = programs := by
  refine Interleave.map_invariant (fun c h₀ => ?_) (fun _ _ _ _ _ hrun => section_program hrun) h
  obtain rfl : c = ⟨s, programs.map Caller.start⟩ := h₀
  have hid : Caller.program ∘ Caller.start = id := rfl
  rw [List.map_map, hid, List.map_id]

end Runs

end RowStore
end Dsv41Overlay
