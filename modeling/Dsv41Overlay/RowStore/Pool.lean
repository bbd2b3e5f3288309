import Dsv41Overlay.Lib.Interleave
import Mathlib.Data.List.Count

/-!
# The lookup pool

`Pool::run` publishes a job, works on it together with the pool's threads and returns
when the job is through. Callers and workers are threads of one interleaving: an
access to an atomic, and a section under `mutex_` that touches nothing outside of it,
is one step. The stores of `run` to `next_`, `chunks_` and `remaining_`, which workers
read without the lock, are steps of their own.

A thread that waits on a condition variable is in its wait set. Notifications take
threads out of it, and a thread may leave it spuriously at any time.

`Move` lists what a step can be (`act_move`). The invariants of `RowStore.PoolRuns`
are read off it.
-/

namespace Dsv41Overlay
namespace RowStore
namespace Pool

/-- Indices that a ticket stands for. -/
def kChunk : ℕ := 1

/-- Batches below this are served by their caller alone. -/
def kSerialBelow : ℕ := 8

/-- `(work->count + kChunk - 1) / kChunk`. -/
def chunksOf (count : ℕ) : ℕ := (count + kChunk - 1) / kChunk

/-- A `Work` that was handed in: the thread that did, and `work->count`. -/
structure Job where
  caller : ℕ
  count : ℕ
deriving DecidableEq, Repr

/-- The members of `Pool`, the wait sets of its condition variables, and what has
happened. Threads are named by their number and jobs by theirs. `stop_` is left out: it
is set by the destructor, and the pool is never deleted. -/
structure State where
  /-- The owner of `caller_`. -/
  callerMutex : Option ℕ
  /-- The owner of `mutex_`, where it is held for several steps. -/
  mutex : Option ℕ
  /-- The wait set of `ready_`. -/
  ready : List ℕ
  /-- The wait set of `done_`. -/
  done : List ℕ
  job : Option ℕ
  next : ℕ
  remaining : ℕ
  active : ℕ
  chunks : ℕ
  generation : ℕ
  /-- The jobs so far. -/
  works : List Job
  /-- The indices served so far, with their jobs. -/
  log : List (ℕ × ℕ)
  /-- The jobs whose call has returned. -/
  returned : List ℕ
deriving DecidableEq, Repr

/-- What the environment decides in a step. -/
structure Choice where
  /-- A wait ends without a notification. -/
  spurious : Bool
  /-- The waiting thread that `notify_one` takes, by its place. -/
  pick : ℕ
deriving DecidableEq, Repr

/-- `notify_one`. -/
def notifyOne (waiting : List ℕ) (x : Choice) : List ℕ :=
  waiting.eraseIdx (x.pick % waiting.length)

/-- `work->count`. -/
def State.count (s : State) (j : ℕ) : ℕ := ((s.works[j]?).map Job.count).getD 0

/-- `serve(work, begin, end)`: the indices are noted. -/
def State.serve (s : State) (j first stop : ℕ) : State :=
  { s with log := s.log ++ (List.range' first (stop - first)).map fun i => (j, i) }

/-! ### `drain` -/

/-- Where a thread stands in `drain`. -/
inductive Drain
  /-- Before `next_.fetch_add(1)`. -/
  | ticket
  /-- Before the test of the ticket. -/
  | compare (t : ℕ)
  | serving (t : ℕ)
  /-- Before `remaining_.fetch_sub(1)`. -/
  | decrement
  /-- Before the section that notifies the caller. -/
  | notify
  deriving DecidableEq, Repr

/-- A step of `drain(work)` for the job `j`; `none` in place of the next stand means
that it returns. -/
def drainStep (s : State) (j : ℕ) (x : Choice) : Drain → Option (State × Option Drain)
  | .ticket => some ({ s with next := s.next + 1 }, some (.compare s.next))
  | .compare t => some (s, if s.chunks ≤ t then none else some (.serving t))
  | .serving t =>
    some (s.serve j (t * kChunk) (min (t * kChunk + kChunk) (s.count j)), some .decrement)
  | .decrement =>
    some ({ s with remaining := s.remaining - 1 },
      some (if s.remaining = 1 then .notify else .ticket))
  | .notify =>
    if s.mutex.isSome then none
    else some ({ s with done := notifyOne s.done x }, some .ticket)

/-! ### Callers -/

/-- What a caller does: `Pool::run`, or `row_store_lookup` in front of it. -/
inductive Call
  | run (count : ℕ)
  | lookup (count : ℕ)
  deriving DecidableEq, Repr

def Call.count : Call → ℕ
  | .run n | .lookup n => n

/-- `row_store_lookup` serves small batches without the pool. -/
def Call.serial : Call → Bool
  | .run _ => false
  | .lookup n => n < kSerialBelow

/-- Where a caller stands, with its job. -/
inductive Caller
  | idle
  /-- In `serve` without the pool, before an index. -/
  | serial (j i : ℕ)
  /-- Before `caller_` is locked. -/
  | lockCaller (j : ℕ)
  /-- Before `mutex_` is locked and the job set. -/
  | lockPublish (j : ℕ)
  | setNext (j : ℕ)
  | setChunks (j : ℕ)
  | setRemaining (j : ℕ)
  /-- Before the generation is counted and `mutex_` released. -/
  | publish (j : ℕ)
  | notifyAll (j : ℕ)
  | drain (j : ℕ) (d : Drain)
  /-- Before `mutex_` is locked for the wait. -/
  | lockWait (j : ℕ)
  | asleep (j : ℕ)
  /-- Before `caller_` is released. -/
  | unlockCaller (j : ℕ)
  deriving DecidableEq, Repr

/-- A step of the caller number `k`, with its calls still to come. -/
def callerStep (s : State) (k : ℕ) (todo : List Call) (x : Choice) :
    Caller → Option (State × List Call × Caller)
  | .idle =>
    match todo with
    | [] => none
    | call :: todo =>
      some ({ s with works := s.works ++ [⟨k, call.count⟩] }, todo,
        if call.serial then .serial s.works.length 0 else .lockCaller s.works.length)
  | .serial j i =>
    if i < s.count j then some (s.serve j i (i + 1), todo, .serial j (i + 1))
    else some ({ s with returned := j :: s.returned }, todo, .idle)
  | .lockCaller j =>
    if s.callerMutex.isSome then none
    else some ({ s with callerMutex := some k }, todo, .lockPublish j)
  | .lockPublish j =>
    if s.mutex.isSome then none
    else some ({ s with mutex := some k, job := some j }, todo, .setNext j)
  | .setNext j => some ({ s with next := 0 }, todo, .setChunks j)
  | .setChunks j => some ({ s with chunks := chunksOf (s.count j) }, todo, .setRemaining j)
  | .setRemaining j => some ({ s with remaining := chunksOf (s.count j) }, todo, .publish j)
  | .publish j =>
    -- `++generation_` on a `uint64_t`
    some ({ s with generation := (s.generation + 1) % 2 ^ 64, mutex := none }, todo, .notifyAll j)
  | .notifyAll j => some ({ s with ready := [] }, todo, .drain j .ticket)
  | .drain j d =>
    (drainStep s j x d).map fun r =>
      (r.1, todo, match r.2 with
        | some d => .drain j d
        | none => .lockWait j)
  | .lockWait j =>
    if s.mutex.isSome then none
    else if s.remaining = 0 ∧ s.active = 0 then
      some ({ s with job := none }, todo, .unlockCaller j)
    else some ({ s with done := k :: s.done }, todo, .asleep j)
  | .asleep j =>
    if x.spurious ∨ k ∉ s.done then some ({ s with done := s.done.erase k }, todo, .lockWait j)
    else none
  | .unlockCaller j =>
    some ({ s with callerMutex := none, returned := j :: s.returned }, todo, .idle)

/-! ### Workers -/

/-- Where a thread of the pool stands in `loop`. -/
inductive Worker
  /-- Before `mutex_` is locked for the wait. -/
  | top
  | asleep
  | drain (j : ℕ) (d : Drain)
  /-- Before the section that ends its part of the job. -/
  | leave
  deriving DecidableEq, Repr

/-- A step of the worker number `k`, which has seen a generation. -/
def workerStep (s : State) (k seen : ℕ) (x : Choice) : Worker → Option (State × ℕ × Worker)
  | .top =>
    if s.mutex.isSome then none
    else if s.generation = seen then some ({ s with ready := k :: s.ready }, seen, .asleep)
    else
      match s.job with
      | some j => some ({ s with active := s.active + 1 }, s.generation, .drain j .ticket)
      | none => some (s, s.generation, .top)
  | .asleep =>
    if x.spurious ∨ k ∉ s.ready then some ({ s with ready := s.ready.erase k }, seen, .top)
    else none
  | .drain j d =>
    (drainStep s j x d).map fun r =>
      (r.1, seen, match r.2 with
        | some d => .drain j d
        | none => .leave)
  | .leave =>
    if s.mutex.isSome then none
    else some ({ s with active := s.active - 1, done := notifyOne s.done x }, seen, .top)

/-! ### The system -/

/-- A thread, with its number. -/
inductive Thread
  | caller (k : ℕ) (todo : List Call) (p : Caller)
  | worker (k seen : ℕ) (p : Worker)
  deriving DecidableEq, Repr

/-- A step of a thread. No step fails: what `serve` does with an index is not looked
at. -/
def act : Interleave.Section State Thread Choice String := fun s th x =>
  match th with
  | .caller k todo p =>
    (callerStep s k todo x p).map fun r => .ok (r.1, .caller k r.2.1 r.2.2)
  | .worker k seen p =>
    (workerStep s k seen x p).map fun r => .ok (r.1, .worker k r.2.1 r.2.2)

/-- The pool as it is made. -/
def fresh : State where
  callerMutex := none
  mutex := none
  ready := []
  done := []
  job := none
  next := 0
  remaining := 0
  active := 0
  chunks := 0
  generation := 0
  works := []
  log := []
  returned := []

/-- A caller for each program, then the workers. -/
def start (programs : List (List Call)) (workers : ℕ) : Interleave State Thread where
  shared := fresh
  threads := programs.mapIdx (fun k todo => .caller k todo .idle) ++
    (List.range workers).map fun k => .worker (programs.length + k) 0 .top

/-- The runs of a pool. -/
def runs (programs : List (List Call)) (workers : ℕ) :
    System (Interleave State Thread) (ℕ × Choice) :=
  Interleave.system (fun c => c = start programs workers) act

/-! ### What a step can be -/

/-- The steps of `drain`. -/
inductive DrainMove (s : State) (j : ℕ) : Drain → State → Option Drain → Prop
  | take : DrainMove s j .ticket { s with next := s.next + 1 } (some (.compare s.next))
  | spent {t : ℕ} (h : s.chunks ≤ t) : DrainMove s j (.compare t) s none
  | start {t : ℕ} (h : t < s.chunks) : DrainMove s j (.compare t) s (some (.serving t))
  | serve {t : ℕ} :
    DrainMove s j (.serving t)
      (s.serve j (t * kChunk) (min (t * kChunk + kChunk) (s.count j))) (some .decrement)
  | last (h : s.remaining = 1) :
    DrainMove s j .decrement { s with remaining := s.remaining - 1 } (some .notify)
  | decrement (h : s.remaining ≠ 1) :
    DrainMove s j .decrement { s with remaining := s.remaining - 1 } (some .ticket)
  | notify {x : Choice} (h : s.mutex = none) :
    DrainMove s j .notify { s with done := notifyOne s.done x } (some .ticket)

/-- A step behind a mutex finds it free. -/
theorem free_of_lock {α β : Type*} {m : Option α} {r : Option β} {y : β}
    (h : (if m.isSome then none else r) = some y) : m = none ∧ r = some y := by
  cases m with
  | none => exact ⟨rfl, h⟩
  | some _ => cases h

theorem drainStep_move {s s' : State} {j : ℕ} {x : Choice} {d : Drain} {d' : Option Drain}
    (h : drainStep s j x d = some (s', d')) : DrainMove s j d s' d' := by
  cases d with
  | ticket =>
    cases h
    exact .take
  | compare t =>
    by_cases ht : s.chunks ≤ t
    · rw [drainStep, if_pos ht] at h
      cases h
      exact .spent ht
    · rw [drainStep, if_neg ht] at h
      cases h
      exact .start (Nat.lt_of_not_le ht)
  | serving t =>
    cases h
    exact .serve
  | decrement =>
    by_cases hr : s.remaining = 1
    · rw [drainStep, if_pos hr] at h
      cases h
      exact .last hr
    · rw [drainStep, if_neg hr] at h
      cases h
      exact .decrement hr
  | notify =>
    rw [drainStep] at h
    obtain ⟨hfree, hr⟩ := free_of_lock h
    cases hr
    exact .notify hfree

/-- The steps of a thread. -/
inductive Move (s : State) : Thread → State → Thread → Prop
  | call {k : ℕ} {call : Call} {todo : List Call} :
    Move s (.caller k (call :: todo) .idle) { s with works := s.works ++ [⟨k, call.count⟩] }
      (.caller k todo
        (if call.serial then .serial s.works.length 0 else .lockCaller s.works.length))
  | serial {k : ℕ} {todo : List Call} {j i : ℕ} (h : i < s.count j) :
    Move s (.caller k todo (.serial j i)) (s.serve j i (i + 1)) (.caller k todo (.serial j (i + 1)))
  | serialEnd {k : ℕ} {todo : List Call} {j i : ℕ} (h : s.count j ≤ i) :
    Move s (.caller k todo (.serial j i)) { s with returned := j :: s.returned }
      (.caller k todo .idle)
  | lockCaller {k : ℕ} {todo : List Call} {j : ℕ} (h : s.callerMutex = none) :
    Move s (.caller k todo (.lockCaller j)) { s with callerMutex := some k }
      (.caller k todo (.lockPublish j))
  | lockPublish {k : ℕ} {todo : List Call} {j : ℕ} (h : s.mutex = none) :
    Move s (.caller k todo (.lockPublish j)) { s with mutex := some k, job := some j }
      (.caller k todo (.setNext j))
  | setNext {k : ℕ} {todo : List Call} {j : ℕ} :
    Move s (.caller k todo (.setNext j)) { s with next := 0 } (.caller k todo (.setChunks j))
  | setChunks {k : ℕ} {todo : List Call} {j : ℕ} :
    Move s (.caller k todo (.setChunks j)) { s with chunks := chunksOf (s.count j) }
      (.caller k todo (.setRemaining j))
  | setRemaining {k : ℕ} {todo : List Call} {j : ℕ} :
    Move s (.caller k todo (.setRemaining j)) { s with remaining := chunksOf (s.count j) }
      (.caller k todo (.publish j))
  | publish {k : ℕ} {todo : List Call} {j : ℕ} :
    Move s (.caller k todo (.publish j))
      { s with generation := (s.generation + 1) % 2 ^ 64, mutex := none }
      (.caller k todo (.notifyAll j))
  | notifyAll {k : ℕ} {todo : List Call} {j : ℕ} :
    Move s (.caller k todo (.notifyAll j)) { s with ready := [] }
      (.caller k todo (.drain j .ticket))
  | callerDrain {k : ℕ} {todo : List Call} {j : ℕ} {d d' : Drain} {s' : State}
    (h : DrainMove s j d s' (some d')) :
    Move s (.caller k todo (.drain j d)) s' (.caller k todo (.drain j d'))
  | callerOut {k : ℕ} {todo : List Call} {j : ℕ} {d : Drain} {s' : State}
    (h : DrainMove s j d s' none) :
    Move s (.caller k todo (.drain j d)) s' (.caller k todo (.lockWait j))
  | finish {k : ℕ} {todo : List Call} {j : ℕ} (h : s.mutex = none) (hr : s.remaining = 0)
    (ha : s.active = 0) :
    Move s (.caller k todo (.lockWait j)) { s with job := none } (.caller k todo (.unlockCaller j))
  | sleep {k : ℕ} {todo : List Call} {j : ℕ} (h : s.mutex = none)
    (hn : ¬ (s.remaining = 0 ∧ s.active = 0)) :
    Move s (.caller k todo (.lockWait j)) { s with done := k :: s.done }
      (.caller k todo (.asleep j))
  | wake {k : ℕ} {todo : List Call} {j : ℕ} :
    Move s (.caller k todo (.asleep j)) { s with done := s.done.erase k }
      (.caller k todo (.lockWait j))
  | unlockCaller {k : ℕ} {todo : List Call} {j : ℕ} :
    Move s (.caller k todo (.unlockCaller j))
      { s with callerMutex := none, returned := j :: s.returned } (.caller k todo .idle)
  | enter {k seen j : ℕ} (h : s.mutex = none) (hg : s.generation ≠ seen) (hj : s.job = some j) :
    Move s (.worker k seen .top) { s with active := s.active + 1 }
      (.worker k s.generation (.drain j .ticket))
  | pass {k seen : ℕ} (h : s.mutex = none) (hg : s.generation ≠ seen) (hj : s.job = none) :
    Move s (.worker k seen .top) s (.worker k s.generation .top)
  | rest {k seen : ℕ} (h : s.mutex = none) (hg : s.generation = seen) :
    Move s (.worker k seen .top) { s with ready := k :: s.ready } (.worker k seen .asleep)
  | rouse {k seen : ℕ} :
    Move s (.worker k seen .asleep) { s with ready := s.ready.erase k } (.worker k seen .top)
  | workerDrain {k seen j : ℕ} {d d' : Drain} {s' : State} (h : DrainMove s j d s' (some d')) :
    Move s (.worker k seen (.drain j d)) s' (.worker k seen (.drain j d'))
  | workerOut {k seen j : ℕ} {d : Drain} {s' : State} (h : DrainMove s j d s' none) :
    Move s (.worker k seen (.drain j d)) s' (.worker k seen .leave)
  | leave {k seen : ℕ} {x : Choice} (h : s.mutex = none) :
    Move s (.worker k seen .leave)
      { s with active := s.active - 1, done := notifyOne s.done x } (.worker k seen .top)

theorem callerStep_move {s s' : State} {k : ℕ} {todo todo' : List Call} {x : Choice}
    {p p' : Caller} (h : callerStep s k todo x p = some (s', todo', p')) :
    Move s (.caller k todo p) s' (.caller k todo' p') := by
  cases p with
  | idle =>
    cases todo with
    | nil => cases h
    | cons call todo =>
      cases h
      exact .call
  | serial j i =>
    rw [callerStep] at h
    split at h
    · next hi =>
      cases h
      exact .serial hi
    · next hi =>
      cases h
      exact .serialEnd (Nat.le_of_not_lt hi)
  | lockCaller j =>
    rw [callerStep] at h
    obtain ⟨hfree, hr⟩ := free_of_lock h
    cases hr
    exact .lockCaller hfree
  | lockPublish j =>
    rw [callerStep] at h
    obtain ⟨hfree, hr⟩ := free_of_lock h
    cases hr
    exact .lockPublish hfree
  | setNext j =>
    cases h
    exact .setNext
  | setChunks j =>
    cases h
    exact .setChunks
  | setRemaining j =>
    cases h
    exact .setRemaining
  | publish j =>
    cases h
    exact .publish
  | notifyAll j =>
    cases h
    exact .notifyAll
  | drain j d =>
    obtain ⟨⟨s₁, d'⟩, hd, hr⟩ := Option.map_eq_some_iff.mp h
    cases hr
    cases d' with
    | none => exact .callerOut (drainStep_move hd)
    | some d' => exact .callerDrain (drainStep_move hd)
  | lockWait j =>
    rw [callerStep] at h
    obtain ⟨hfree, hr⟩ := free_of_lock h
    -- the predicate of the wait
    split at hr
    · next hdone =>
      cases hr
      exact .finish hfree hdone.1 hdone.2
    · next hno =>
      cases hr
      exact .sleep hfree hno
  | asleep j =>
    rw [callerStep] at h
    split at h
    · cases h
      exact .wake
    · cases h
  | unlockCaller j =>
    cases h
    exact .unlockCaller

theorem workerStep_move {s s' : State} {k seen seen' : ℕ} {x : Choice} {p p' : Worker}
    (h : workerStep s k seen x p = some (s', seen', p')) :
    Move s (.worker k seen p) s' (.worker k seen' p') := by
  cases p with
  | top =>
    rw [workerStep] at h
    obtain ⟨hfree, hr⟩ := free_of_lock h
    split at hr
    · next hg =>
      cases hr
      exact .rest hfree hg
    · next hg =>
      -- awake with a new generation: a published job, or none any more
      split at hr
      · next j hj =>
        cases hr
        exact .enter hfree hg hj
      · next hj =>
        cases hr
        exact .pass hfree hg hj
  | asleep =>
    rw [workerStep] at h
    split at h
    · cases h
      exact .rouse
    · cases h
  | drain j d =>
    obtain ⟨⟨s₁, d'⟩, hd, hr⟩ := Option.map_eq_some_iff.mp h
    cases hr
    cases d' with
    | none => exact .workerOut (drainStep_move hd)
    | some d' => exact .workerDrain (drainStep_move hd)
  | leave =>
    rw [workerStep] at h
    obtain ⟨hfree, hr⟩ := free_of_lock h
    cases hr
    exact .leave hfree

/-- **What a step can be.** -/
theorem act_move {s s' : State} {th th' : Thread} {x : Choice}
    (h : act s th x = some (.ok (s', th'))) : Move s th s' th' := by
  cases th with
  | caller k todo p =>
    obtain ⟨⟨s₁, todo', p'⟩, hstep, hr⟩ := Option.map_eq_some_iff.mp h
    cases hr
    exact callerStep_move hstep
  | worker k seen p =>
    obtain ⟨⟨s₁, seen', p'⟩, hstep, hr⟩ := Option.map_eq_some_iff.mp h
    cases hr
    exact workerStep_move hstep

end Pool
end RowStore
end Dsv41Overlay
