import Dsv41Overlay.RowStore.PoolSound

/-!
# The pool is sound

The caller that sleeps on `done_` is the only thread that does, and it sleeps with a worker
in its job (`waiting_reachable`): it looks at `active_` under the lock under which workers
count themselves in and out, and each that counts itself out sends a notification. So
there is always a thread that can go on without a spurious wakeup (`live_reachable`): the
worker, the caller that holds `caller_`, or one that waits for it.

`pool_sound` puts together what holds in every configuration of every run.
-/

namespace Dsv41Overlay
namespace RowStore
namespace Pool

variable {s s' : State} {th th' b : Thread} {i k j : ℕ}
variable {programs : List (List Call)} {workers : ℕ} {c : Interleave State Thread}

/-! ### Waiting on `done_` -/

/-- The only thread that waits on `done_` is a sleeping caller with a worker in its job. -/
def Waiting (c : Interleave State Thread) : Prop :=
  c.shared.done = [] ∨ ∃ m n todo j, c.shared.done = [m] ∧
    c.threads[m]? = some (.caller n todo (.asleep j)) ∧ c.shared.active ≠ 0

/-- `notify_one` wakes the one thread that waits. -/
theorem notifyOne_singleton (m : ℕ) (x : Choice) : notifyOne [m] x = [] := by
  unfold notifyOne
  rw [List.length_singleton, Nat.mod_one]
  rfl

theorem notifyOne_nil (x : Choice) : notifyOne [] x = [] := rfl

/-- What a step does to those that wait on `done_`. -/
theorem Move.done (h : Move s th s' th') :
    s'.done = s.done ∧ s.active ≤ s'.active ∨ (∃ x, s'.done = notifyOne s.done x) ∨
      (∃ k todo j, th = .caller k todo (.lockWait j) ∧ th' = .caller k todo (.asleep j) ∧
        s'.done = k :: s.done ∧ s'.active = s.active ∧ ¬ (s.remaining = 0 ∧ s.active = 0)) ∨
      ∃ k todo j, th = .caller k todo (.asleep j) ∧ s'.done = s.done.erase k := by
  cases h with
  | leave => exact Or.inr (Or.inl ⟨_, rfl⟩)
  | sleep _ hn => exact Or.inr (Or.inr (Or.inl ⟨_, _, _, rfl, rfl, rfl, rfl, hn⟩))
  | wake => exact Or.inr (Or.inr (Or.inr ⟨_, _, _, rfl, rfl⟩))
  | enter => exact Or.inl ⟨rfl, Nat.le_succ _⟩
  | callerDrain hd | workerDrain hd =>
    cases hd with
    | notify => exact Or.inr (Or.inl ⟨_, rfl⟩)
    | _ => exact Or.inl ⟨rfl, Nat.le_refl _⟩
  | callerOut hd | workerOut hd =>
    cases hd with
    | spent => exact Or.inl ⟨rfl, Nat.le_refl _⟩
  | _ => exact Or.inl ⟨rfl, Nat.le_refl _⟩

/-- **No wakeup is lost**: a caller that sleeps without a notification has a worker in its
job, which will send one. -/
theorem waiting_reachable (h : (runs programs workers).Reachable c) : Waiting c := by
  refine h.invariant_along (I := Waiting) ?_ ?_
  · rintro c rfl
    exact Or.inl rfl
  · rintro c ⟨i, x⟩ c' hr hI hstep
    obtain ⟨th, s, th', hth, hrun, rfl⟩ := Interleave.turn_ok hstep
    -- by what the step does to the condition variable
    have hmove := act_move hrun
    have hlocks := locks_reachable hr
    have hset := List.getElem?_set_self (a := th') (List.getElem?_eq_some_iff.mp hth).1
    rcases hI with hnone | ⟨m, n, todo, j, hdone, hm, hactive⟩
    · rcases hmove.done with ⟨heq, -⟩ | ⟨x, heq⟩ | ⟨k, todo, j, rfl, rfl, heq, ha, hn⟩ |
        ⟨k, todo, j, rfl, heq⟩
      -- nobody waits before, and nobody after
      · exact Or.inl (heq.trans hnone)
      · exact Or.inl (by rw [show s.done = _ from heq, hnone, notifyOne_nil])
      · -- the caller goes to sleep, because it has found a worker in its job
        obtain ⟨rfl, -⟩ := hlocks i _ hth
        refine Or.inr ⟨k, k, todo, j, ?_, hset, ?_⟩
        · rw [show s.done = _ from heq, hnone]
        · show s.active ≠ 0
          rw [ha]
          intro hzero
          have hc := counters_reachable hr k _ hth
          exact hn ⟨(served_of_quiet hr hth rfl rfl hc.2 hzero).2, hzero⟩
      · exact Or.inl (by rw [show s.done = _ from heq, hnone]; rfl)
    · -- the sleeping caller holds `caller_`, so no other caller is near
      have howner : ∀ {n todo p}, th = .caller n todo p → p.owns = true → i = m := by
        rintro n todo p rfl howns
        exact owner_unique (hlocks m _ hm) (hlocks i _ hth) rfl howns
      rcases hmove.done with ⟨heq, hle⟩ | ⟨x, heq⟩ | ⟨k, todo', j', rfl, rfl, heq, ha, hn⟩ |
        ⟨k, todo', j', rfl, heq⟩
      -- the sleeping caller takes a step of its own, or another thread does
      · by_cases hi : i = m
        · subst hi
          cases hth.symm.trans hm
          obtain ⟨rfl, -⟩ := hlocks i _ hth
          cases hmove with
          | wake =>
            refine Or.inl ?_
            show c.shared.done.erase n = []
            rw [hdone]
            exact List.erase_cons_head ..
        · refine Or.inr ⟨m, n, todo, j, heq.trans hdone, ?_, ?_⟩
          · exact (List.getElem?_set_ne hi).trans hm
          · exact Nat.pos_iff_ne_zero.mp (Nat.lt_of_lt_of_le (Nat.pos_of_ne_zero hactive) hle)
      -- it is woken
      · exact Or.inl (by rw [show s.done = _ from heq, hdone, notifyOne_singleton])
      -- no other caller can go to sleep
      · obtain rfl := howner rfl rfl
        cases hth.symm.trans hm
      · obtain rfl := howner rfl rfl
        obtain ⟨rfl, -⟩ := hlocks i _ hth
        refine Or.inl ?_
        rw [show s.done = _ from heq, hdone]
        exact List.erase_cons_head ..

/-! ### Steps that can be taken -/

/-- `mutex_` is held for several steps by the thread that holds `caller_` only. -/
theorem mutex_owner (h : (runs programs workers).Reachable c) :
    ∀ m, c.shared.mutex = some m → c.shared.callerMutex = some m := by
  refine h.invariant_along (I := fun c => ∀ m, c.shared.mutex = some m →
    c.shared.callerMutex = some m) ?_ ?_
  · rintro c rfl m hm
    cases hm
  · rintro c ⟨i, x⟩ c' hr hI hstep m hm
    obtain ⟨th, s, th', hth, hrun, rfl⟩ := Interleave.turn_ok hstep
    have hmove := act_move hrun
    obtain ⟨hnumber, hcaller, hmutex⟩ := locks_reachable hr i th hth
    change s.mutex = some m at hm
    show s.callerMutex = some m
    -- by the step that was taken
    generalize hs : c.shared = s₀ at *
    cases hmove with
    -- the mutex of the callers was free, so nobody held the other one
    | lockCaller hfree =>
      have hown := hI m hm
      rw [hfree] at hown
      cases hown
    -- the caller that takes the inner mutex holds the outer one
    | lockPublish =>
      cases hm
      cases hnumber
      exact hcaller.mpr rfl
    | publish => cases hm
    | unlockCaller =>
      -- the thread would be the one that holds `mutex_`
      have hown := hI m hm
      rw [hcaller.mpr rfl] at hown
      cases hown
      exact absurd (hmutex.mp hm) nofun
    | callerDrain hd | callerOut hd | workerDrain hd | workerOut hd =>
      rw [hd.frame.1]
      rw [hd.frame.2.1] at hm
      exact hI m hm
    | _ => exact hI m hm

/-- A step that is not a spurious wakeup. -/
def calm : Choice := ⟨false, 0⟩

/-- The caller is in a call, or has one to come. -/
def Thread.busy : Thread → Bool
  | .caller _ [] .idle => false
  | .caller .. => true
  | .worker .. => false

/-- A step of `drain` can be taken when `mutex_` is free. -/
theorem drainStep_isSome (d : Drain) (hfree : s.mutex = none) :
    (drainStep s j calm d).isSome := by
  cases d with
  | notify =>
    rw [drainStep, if_neg (Option.not_isSome_iff_eq_none.mpr hfree)]
    rfl
  | _ => rfl

theorem act_caller_isSome {n : ℕ} {todo : List Call} {p : Caller}
    (h : (callerStep s n todo calm p).isSome) : (act s (.caller n todo p) calm).isSome := by
  rw [act, Option.isSome_map]
  exact h

/-- A worker in a job can go on when `mutex_` is free. -/
theorem act_worker_isSome (hactive : th.active ≠ 0) (hfree : s.mutex = none) :
    (act s th calm).isSome := by
  have hno := Option.not_isSome_iff_eq_none.mpr hfree
  cases th with
  | caller => exact absurd rfl hactive
  | worker n seen p =>
    rw [act, Option.isSome_map]
    cases p with
    | top => exact absurd rfl hactive
    | asleep => exact absurd rfl hactive
    | drain j d =>
      rw [workerStep, Option.isSome_map]
      exact drainStep_isSome d hfree
    | leave =>
      rw [workerStep, if_neg hno]
      rfl

/-- The thread that holds `caller_` can go on, unless it sleeps. -/
theorem act_owner_isSome {n : ℕ} {todo : List Call} {p : Caller} (howns : p.owns = true)
    (hfree : p.publishes = false → s.mutex = none)
    (hawake : ∀ j, p = .asleep j → n ∉ s.done) :
    (act s (.caller n todo p) calm).isSome := by
  apply act_caller_isSome
  have hno : p.publishes = false → ¬ s.mutex.isSome = true := fun hpub =>
    Option.not_isSome_iff_eq_none.mpr (hfree hpub)
  cases p with
  | idle | serial | lockCaller => cases howns
  | lockPublish j =>
    rw [callerStep, if_neg (hno rfl)]
    rfl
  | drain j d =>
    rw [callerStep, Option.isSome_map]
    exact drainStep_isSome d (hfree rfl)
  | lockWait j =>
    rw [callerStep, if_neg (hno rfl)]
    split
    · rfl
    · rfl
  | asleep j =>
    rw [callerStep, if_pos (Or.inr (hawake j rfl))]
    rfl
  | _ => rfl

/-- A caller that does not hold `caller_` can go on when no thread does. -/
theorem act_free_isSome (hbusy : th.busy = true) (howns : th.owns = false)
    (hfree : s.callerMutex = none) : (act s th calm).isSome := by
  cases th with
  | worker => cases hbusy
  | caller n todo p =>
    apply act_caller_isSome
    cases p with
    | idle =>
      cases todo with
      | nil => cases hbusy
      | cons call todo => rfl
    | serial j i =>
      rw [callerStep]
      split
      · rfl
      · rfl
    | lockCaller j =>
      rw [callerStep, if_neg (Option.not_isSome_iff_eq_none.mpr hfree)]
      rfl
    | _ => cases howns

/-- **No state is stuck**: while a call is running or to come, some thread can take a step
that is not a spurious wakeup. -/
theorem live_reachable (h : (runs programs workers).Reachable c) (hb : c.threads[k]? = some b)
    (hbusy : b.busy = true) : ∃ i, (c.turn act i calm).isSome := by
  have hlocks := locks_reachable h
  -- either nobody owns the pool, or its owner can go on
  cases hm : c.shared.callerMutex with
  | none =>
    have hno : b.owns = false := by
      rw [Bool.eq_false_iff]
      intro howns
      have hown := (hlocks k b hb).2.1.mpr howns
      rw [hm] at hown
      cases hown
    exact ⟨k, Interleave.turn_isSome hb (act_free_isSome hbusy hno hm)⟩
  | some i =>
    obtain ⟨th, hth, howns⟩ := owner_reachable h hm
    -- whoever holds the inner mutex is the owner
    have hfree : th.publishes = false → c.shared.mutex = none := by
      intro hpub
      cases hmu : c.shared.mutex with
      | none => rfl
      | some m =>
        have hown := mutex_owner h m hmu
        rw [hm] at hown
        cases hown
        rw [(hlocks i th hth).2.2.mp hmu] at hpub
        cases hpub
    cases th with
    | worker => cases howns
    | caller n todo p =>
      obtain ⟨rfl, -⟩ := hlocks i _ hth
      by_cases hsleep : ∃ j, p = .asleep j ∧ n ∈ c.shared.done
      · -- the caller waits for a worker, which can go on
        obtain ⟨j, rfl, hmem⟩ := hsleep
        have hactive : c.shared.active ≠ 0 := by
          rcases waiting_reachable h with hnone | ⟨-, -, -, -, -, -, hactive⟩
          · rw [hnone] at hmem
            cases hmem
          · exact hactive
        have hworker : ∃ (m : ℕ) (o : Thread), c.threads[m]? = some o ∧ o.active ≠ 0 := by
          by_contra hno
          apply hactive
          rw [active_reachable h]
          refine Interleave.sum_map_eq_zero fun m o ho => ?_
          by_contra hne
          exact hno ⟨m, o, ho, hne⟩
        obtain ⟨m, o, ho, hne⟩ := hworker
        exact ⟨m, Interleave.turn_isSome ho (act_worker_isSome hne (hfree rfl))⟩
      -- an owner that is awake can go on
      · refine ⟨n, Interleave.turn_isSome hth (act_owner_isSome howns hfree fun j hj hmem => ?_)⟩
        exact hsleep ⟨j, hj, hmem⟩

/-! ### What has been handed in -/

/-- The jobs of a caller, with the calls to come, are its program; and each of them has
returned, up to the one it is in. -/
def Issued (programs : List (List Call)) (s : State) (k : ℕ) (th : Thread) : Prop :=
  ∀ program, programs[k]? = some program →
    (s.works.filter fun w => w.caller = k).map Job.count ++ th.todo = program.map Call.count ∧
      ∀ (j : ℕ) (w : Job), s.works[j]? = some w → w.caller = k →
        j ∈ s.returned ∨ th.job = some j

theorem getElem?_concat_cases {α : Type*} {l : List α} {a b : α} {j : ℕ}
    (h : (l ++ [a])[j]? = some b) : l[j]? = some b ∨ j = l.length ∧ a = b := by
  rcases Nat.lt_or_ge j l.length with hlt | hge
  · rw [List.getElem?_append_left hlt] at h
    exact .inl h
  · rw [List.getElem?_append_right hge] at h
    obtain ⟨hlt, hget⟩ := List.getElem?_eq_some_iff.mp h
    rw [List.getElem_singleton] at hget
    rw [List.length_singleton] at hlt
    exact .inr ⟨by omega, hget⟩

theorem Move.returned_subset (h : Move s th s' th') : s.returned ⊆ s'.returned := by
  rcases h.returned with heq | ⟨m, -, -, -, heq⟩
  · rw [heq]
    exact List.Subset.refl _
  · rw [heq]
    exact List.subset_cons_self m s.returned

/-- The thread that steps: a call of its own is handed in, or one ends. -/
theorem Issued.own (h : Move s th s' th') (hnumber : th.number = k)
    (hI : Issued programs s k th) : Issued programs s' k th' := by
  intro program hprogram
  obtain ⟨hcounts, hjobs⟩ := hI program hprogram
  -- either no call was added, or this thread has added one
  rcases h.works with ⟨hworks, htodo, hjob⟩ | ⟨n, hworks, htodo, hnone, hnew⟩
  · rw [hworks, htodo]
    refine ⟨hcounts, fun j w hw hcaller => ?_⟩
    rcases hjobs j w hw hcaller with hret | hcur
    · exact Or.inl (h.returned_subset hret)
    · rcases hjob with hsame | ⟨m, hm, -, heq⟩
      · exact Or.inr (hsame.trans hcur)
      · -- the call that ends is noted
        rw [hm] at hcur
        cases hcur
        rw [heq]
        exact Or.inl (List.mem_cons_self ..)
  · refine ⟨?_, fun j w hw hcaller => ?_⟩
    · rw [hworks, List.filter_append, List.map_append, List.append_assoc, ← hcounts, htodo]
      congr 1
      rw [List.filter_cons, if_pos (by exact decide_eq_true hnumber)]
      rfl
    · rw [hworks] at hw
      rcases getElem?_concat_cases hw with hw | ⟨rfl, rfl⟩
      · -- before a call there is no job at hand, so the earlier ones have returned
        rcases hjobs j w hw hcaller with hret | hcur
        · exact Or.inl (h.returned_subset hret)
        · rw [hnone] at hcur
          cases hcur
      · exact Or.inr hnew

/-- The other threads: a new job is not theirs. -/
theorem Issued.other (h : Move s th s' th') (hne : th.number ≠ k)
    (hI : Issued programs s k b) : Issued programs s' k b := by
  intro program hprogram
  obtain ⟨hcounts, hjobs⟩ := hI program hprogram
  have hkept : ∀ (j : ℕ) (w : Job), s.works[j]? = some w → w.caller = k →
      j ∈ s'.returned ∨ b.job = some j := fun j w hw hcaller =>
    (hjobs j w hw hcaller).imp_left fun hret => h.returned_subset hret
  -- the call that was added is another thread's
  rcases h.works with ⟨hworks, -⟩ | ⟨n, hworks, -⟩
  · rw [hworks]
    exact ⟨hcounts, hkept⟩
  · refine ⟨?_, fun j w hw hcaller => ?_⟩
    · rw [hworks, List.filter_append, List.filter_cons, if_neg (by simpa using hne),
        List.filter_nil, List.append_nil]
      exact hcounts
    · rw [hworks] at hw
      rcases getElem?_concat_cases hw with hw | ⟨-, rfl⟩
      · exact hkept j w hw hcaller
      · exact absurd hcaller hne

theorem issued_reachable (h : (runs programs workers).Reachable c) :
    Interleave.Each (Issued programs) c := by
  refine Interleave.each_invariant ?_ ?_ h
  · rintro c rfl k th hth program hprogram
    rcases start_threads hth with ⟨todo, htodo, rfl⟩ | ⟨hnone, rfl⟩
    · cases htodo.symm.trans hprogram
      exact ⟨rfl, nofun⟩
    · rw [hnone] at hprogram
      cases hprogram
  · intro c i th x s th' hr hK hth hact
    have hmove := act_move hact
    have hnumber := (locks_reachable hr i th hth).1
    refine ⟨(hK i th hth).own hmove hnumber, fun k b hk hb => (hK k b hb).other hmove ?_⟩
    rw [hnumber]
    exact Ne.symm hk

/-! ### The pool -/

/-- The thread is in a place from which it reads the job's `Work`: its own call, or
`drain`. -/
def Thread.Uses (th : Thread) (j : ℕ) : Prop :=
  th.job = some j ∨ ∃ d, th.drains = some (j, d)

/-- What the pool promises of a configuration. -/
structure Sound (programs : List (List Call)) (c : Interleave State Thread) : Prop where
  /-- No index of a job is served twice, and none that the job does not have. -/
  once : ∀ j i, c.shared.log.count (j, i) ≤ 1 ∧ ((j, i) ∈ c.shared.log → i < c.shared.count j)
  /-- When a call has returned, each index of its job has been served exactly once. -/
  returned : ∀ j ∈ c.shared.returned, ∀ i,
    c.shared.log.count (j, i) = if i < c.shared.count j then 1 else 0
  /-- No thread reads the `Work` of a call that has returned. -/
  alive : ∀ th ∈ c.threads, ∀ j, th.Uses j → j ∉ c.shared.returned
  /-- A ticket is taken for the job whose tickets they are. -/
  own : ∀ th ∈ c.threads, ∀ j d, th.drains = some (j, d) → c.shared.job = some j
  /-- The counters are set while no thread is in `drain`. -/
  reset : ∀ th ∈ c.threads, th.resets = true → ∀ b ∈ c.threads, b.drains = none
  /-- While a call is running or to come, some thread can take a step that is not a
  spurious wakeup. -/
  live : ∀ th ∈ c.threads, th.busy = true → ∃ i, (c.turn act i calm).isSome
  /-- A caller has handed in the jobs of its program in turn, and each has returned but the
  one it is in. -/
  issued : ∀ k th, c.threads[k]? = some th → Issued programs c.shared k th

/-- **The pool neither loses, repeats nor leaks work**, whatever its callers run, however
many workers it has, and in whatever order they take their steps. -/
theorem pool_sound (h : (runs programs workers).Reachable c) : Sound programs c where
  once j i := ⟨log_once h (j, i), log_known h (j, i)⟩
  returned := served_of_returned h
  alive := by
    -- a job is used by those that hold it
    intro th hmem j huses
    obtain ⟨k, hth⟩ := List.mem_iff_getElem?.mp hmem
    rcases huses with hjob | ⟨d, hd⟩
    · exact pending_reachable h k th hth j hjob
    · obtain ⟨-, -, -, -, -, -, hret⟩ := job_owner h (drains_counting h hth hd).1
      exact hret
  own := by
    intro th hmem j d hd
    obtain ⟨k, hth⟩ := List.mem_iff_getElem?.mp hmem
    exact (drains_counting h hth hd).1
  reset := by
    -- the job is reset only when no worker is in it
    intro th hmem hreset b hb
    obtain ⟨i, hth⟩ := List.mem_iff_getElem?.mp hmem
    obtain ⟨k, hb⟩ := List.mem_iff_getElem?.mp hb
    have hpub := Thread.publishes_of_resets hreset
    have hactive := ((posted_reachable h).1 i th hth).active_eq_zero hpub
    by_cases hk : k = i
    · subst hk
      cases hth.symm.trans hb
      cases th with
      | worker => cases hreset
      | caller n todo p =>
        cases p with
        | drain => cases hreset
        | _ => rfl
    · exact drains_eq_none h hth (Thread.owns_of_publishes hpub) hactive hb hk
  live := by
    intro th hmem hbusy
    obtain ⟨k, hth⟩ := List.mem_iff_getElem?.mp hmem
    exact live_reachable h hth hbusy
  issued := issued_reachable h

/-- A caller with a job of two indices and a worker that joins in: the caller serves the
second index, finds the worker in its job and goes to sleep. -/
def joined : List (ℕ × Choice) :=
  [0, 0, 0, 0, 0, 0, 0, 0, 1, 1, 1, 0, 0, 0, 0, 0, 0, 0].map fun i => (i, calm)

/-- What they have come to: the worker is about to serve the first index. -/
def asleep : Interleave State Thread where
  shared :=
    { callerMutex := some 0, mutex := none, ready := [], done := [0], job := some 0, next := 3,
      remaining := 1, active := 1, chunks := 2, generation := 1, works := [⟨0, 2⟩],
      log := [(0, 1)], returned := [] }
  threads := [.caller 0 [] (.asleep 0), .worker 1 1 (.drain 0 (.serving 0))]

/-- Instance: the caller sleeps, and is woken by the worker. -/
theorem pool_sound_asleep : Sound [[.run 2]] asleep :=
  pool_sound (show (runs [[.run 2]] 1).Reachable asleep from
    Interleave.reachable_run (.init rfl) (show Interleave.run act _ joined = _ from rfl))

end Pool
end RowStore
end Dsv41Overlay
