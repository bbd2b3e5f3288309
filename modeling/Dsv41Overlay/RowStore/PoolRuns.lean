import Dsv41Overlay.RowStore.Pool

/-!
# The threads of the pool

What a thread knows of the pool from the place it is in, in every run. The invariants
come in layers, each of them read off `Move`:

* `Locks`: `caller_` and `mutex_` are held by the threads whose places say so, so that one
  caller at most is between `lockPublish` and `unlockCaller`;
* `active_reachable`: `active_` is the number of workers between `enter` and `leave`;
* `Mine`, `Pending`: the job of a caller is its own and has not returned;
* `Posted`: `job_` is the job of the caller that holds `caller_`, a worker in a job keeps it
  there, and while a caller sets up its job no worker is in one;
* `Counters`: `next_` and `chunks_` as the caller sets them up and the drains find them.

The fourth is what keeps tickets apart: a worker enters a job under `mutex_`, which its
caller holds from the store to `job_` to the count of the generation, and the caller takes
the job back only when it finds `active_` at zero.
-/

namespace Dsv41Overlay
namespace RowStore
namespace Pool

/-! ### What a thread holds -/

/-- The caller holds `caller_`. -/
def Caller.owns : Caller → Bool
  | .idle | .serial .. | .lockCaller _ => false
  | _ => true

/-- The caller holds `mutex_`, to set up its job. -/
def Caller.publishes : Caller → Bool
  | .setNext _ | .setChunks _ | .setRemaining _ | .publish _ => true
  | _ => false

/-- The job of the call that the caller is in. -/
def Caller.job : Caller → Option ℕ
  | .idle => none
  | .serial j _ | .lockCaller j | .lockPublish j | .setNext j | .setChunks j | .setRemaining j
  | .publish j | .notifyAll j | .drain j _ | .lockWait j | .asleep j | .unlockCaller j => some j

/-- What a caller that holds `caller_` has in `job_`. -/
def Caller.posted : Caller → Option ℕ
  | .setNext j | .setChunks j | .setRemaining j | .publish j | .notifyAll j | .drain j _
  | .lockWait j | .asleep j => some j
  | _ => none

/-- The job whose counters are set. -/
def Caller.counting : Caller → Option ℕ
  | .publish j | .notifyAll j | .drain j _ | .lockWait j | .asleep j => some j
  | _ => none

def Thread.number : Thread → ℕ
  | .caller k _ _ | .worker k _ _ => k

def Thread.owns : Thread → Bool
  | .caller _ _ p => p.owns
  | .worker .. => false

def Thread.publishes : Thread → Bool
  | .caller _ _ p => p.publishes
  | .worker .. => false

def Thread.job : Thread → Option ℕ
  | .caller _ _ p => p.job
  | .worker .. => none

def Thread.counting : Thread → Option ℕ
  | .caller _ _ p => p.counting
  | .worker .. => none

/-- What the calls to come count. -/
def Thread.todo : Thread → List ℕ
  | .caller _ todo _ => todo.map Call.count
  | .worker .. => []

/-- Where the thread stands in `drain`, and for which job. -/
def Thread.drains : Thread → Option (ℕ × Drain)
  | .caller _ _ (.drain j d) | .worker _ _ (.drain j d) => some (j, d)
  | _ => none

/-- What the thread adds to `active_`. -/
def Thread.active : Thread → ℕ
  | .worker _ _ (.drain ..) | .worker _ _ .leave => 1
  | _ => 0

variable {s s' : State} {th th' b : Thread} {i k j : ℕ}

/-- What `drain` leaves alone. -/
theorem DrainMove.frame {d : Drain} {d' : Option Drain} (h : DrainMove s j d s' d') :
    s'.callerMutex = s.callerMutex ∧ s'.mutex = s.mutex ∧ s'.job = s.job ∧ s'.active = s.active ∧
      s'.chunks = s.chunks ∧ s'.works = s.works ∧ s'.returned = s.returned := by
  cases h <;> exact ⟨rfl, rfl, rfl, rfl, rfl, rfl, rfl⟩

/-- A step keeps the number of its thread. -/
theorem Move.number (h : Move s th s' th') : th'.number = th.number := by
  cases h <;> rfl

/-! ### The locks -/

/-- A thread holds the locks that its place says, and its number is its own. -/
def Locks (s : State) (k : ℕ) (th : Thread) : Prop :=
  th.number = k ∧ (s.callerMutex = some k ↔ th.owns) ∧ (s.mutex = some k ↔ th.publishes)

theorem Locks.own (h : Move s th s' th') (hth : Locks s i th) : Locks s' i th' := by
  obtain ⟨rfl, hcaller, hmutex⟩ := hth
  refine ⟨h.number, ?_⟩
  -- only the lock and the unlock steps change an owner
  cases h with
  | @call k call todo =>
    split
    · exact ⟨hcaller, hmutex⟩
    · exact ⟨hcaller, hmutex⟩
  | lockCaller => exact ⟨iff_of_true rfl rfl, hmutex⟩
  | lockPublish => exact ⟨hcaller, iff_of_true rfl rfl⟩
  | publish => exact ⟨hcaller, iff_of_false nofun nofun⟩
  | unlockCaller => exact ⟨iff_of_false nofun nofun, hmutex⟩
  | callerDrain hd | callerOut hd | workerDrain hd | workerOut hd =>
    obtain ⟨hc, hm, -⟩ := hd.frame
    rw [hc, hm]
    exact ⟨hcaller, hmutex⟩
  | _ => exact ⟨hcaller, hmutex⟩

theorem Locks.other (h : Move s th s' th') (hth : Locks s i th) (hb : Locks s k b) (hk : k ≠ i) :
    Locks s' k b := by
  obtain ⟨rfl, hcaller, hmutex⟩ := hth
  obtain ⟨hnumber, hbcaller, hbmutex⟩ := hb
  refine ⟨hnumber, ?_⟩
  -- a lock that changes hands is free before or behind the step
  have hne : ∀ {n : ℕ}, n ≠ k → ¬ some n = some k := fun hn heq => hn (Option.some.inj heq)
  cases h with
  | lockCaller hfree =>
    rw [hfree] at hbcaller
    exact ⟨iff_of_false (hne hk.symm) (mt hbcaller.mpr nofun), hbmutex⟩
  | lockPublish hfree =>
    rw [hfree] at hbmutex
    exact ⟨hbcaller, iff_of_false (hne hk.symm) (mt hbmutex.mpr nofun)⟩
  | publish =>
    rw [hmutex.mpr rfl] at hbmutex
    exact ⟨hbcaller, iff_of_false nofun (mt hbmutex.mpr (hne hk.symm))⟩
  | unlockCaller =>
    rw [hcaller.mpr rfl] at hbcaller
    exact ⟨iff_of_false nofun (mt hbcaller.mpr (hne hk.symm)), hbmutex⟩
  | callerDrain hd | callerOut hd | workerDrain hd | workerOut hd =>
    obtain ⟨hc, hm, -⟩ := hd.frame
    rw [hc, hm]
    exact ⟨hbcaller, hbmutex⟩
  | _ => exact ⟨hbcaller, hbmutex⟩

variable {programs : List (List Call)} {workers : ℕ} {c : Interleave State Thread}

/-- Threads as they start. -/
theorem start_threads (h : (start programs workers).threads[k]? = some th) :
    (∃ todo, programs[k]? = some todo ∧ th = .caller k todo .idle) ∨
      (programs[k]? = none ∧ th = .worker k 0 .top) := by
  unfold start at h
  dsimp only at h
  -- the programs stand first, the workers behind them
  rw [List.getElem?_append] at h
  split at h
  · rw [List.getElem?_mapIdx] at h
    obtain ⟨todo, htodo, rfl⟩ := Option.map_eq_some_iff.mp h
    exact Or.inl ⟨todo, htodo, rfl⟩
  · next hlen =>
    rw [List.length_mapIdx] at h hlen
    rw [List.getElem?_map] at h
    obtain ⟨n, hn, rfl⟩ := Option.map_eq_some_iff.mp h
    obtain ⟨hlt, rfl⟩ := List.getElem?_eq_some_iff.mp hn
    rw [List.getElem_range, Nat.add_sub_cancel' (Nat.le_of_not_lt hlen)]
    exact Or.inr ⟨List.getElem?_eq_none (Nat.le_of_not_lt hlen), rfl⟩

theorem locks_reachable (h : (runs programs workers).Reachable c) : Interleave.Each Locks c := by
  refine Interleave.each_invariant ?_ ?_ h
  · rintro c rfl k th hth
    rcases start_threads hth with ⟨todo, -, rfl⟩ | ⟨-, rfl⟩
    · exact ⟨rfl, iff_of_false nofun nofun, iff_of_false nofun nofun⟩
    · exact ⟨rfl, iff_of_false nofun nofun, iff_of_false nofun nofun⟩
  · intro c i th x s th' _ hK hth hact
    have hmove := act_move hact
    exact ⟨Locks.own hmove (hK i th hth), fun k b hk hb =>
      Locks.other hmove (hK i th hth) (hK k b hb) hk⟩

/-- The thread that holds `caller_` is there. -/
theorem owner_reachable (h : (runs programs workers).Reachable c)
    (hi : c.shared.callerMutex = some i) : ∃ th, c.threads[i]? = some th ∧ th.owns = true := by
  -- whoever holds the lock is a thread of the pool
  have hlt : i < c.threads.length := by
    refine h.invariant_along (I := fun c => ∀ i, c.shared.callerMutex = some i →
      i < c.threads.length) ?_ ?_ i hi
    · rintro c rfl i hi
      cases hi
    · rintro c ⟨n, x⟩ c' hr hI hstep m hm
      obtain ⟨th, s, th', hth, hrun, rfl⟩ := Interleave.turn_ok hstep
      have hn := (List.getElem?_eq_some_iff.mp hth).1
      have hlocks := locks_reachable hr n th hth
      show m < (c.threads.set n th').length
      rw [List.length_set]
      change s.callerMutex = some m at hm
      -- only a thread of the configuration takes the lock
      generalize hs : c.shared = s₀ at *
      cases act_move hrun with
      | lockCaller =>
        obtain ⟨rfl, -⟩ := hlocks
        cases hm
        exact hn
      | unlockCaller => cases hm
      | callerDrain hd | callerOut hd | workerDrain hd | workerOut hd =>
        rw [hd.frame.1] at hm
        exact hI m (hs ▸ hm)
      | _ => exact hI m (hs ▸ hm)
  have hth := List.getElem?_eq_getElem hlt
  exact ⟨_, hth, (locks_reachable h i _ hth).2.1.mp hi⟩

/-! ### The workers in a job -/

theorem Move.active (h : Move s th s' th') (hcover : th.active ≤ s.active) :
    s'.active + th.active = s.active + th'.active := by
  cases h with
  | enter => exact Nat.add_right_comm ..
  | leave => exact Nat.sub_add_cancel hcover
  | callerDrain hd | callerOut hd | workerDrain hd | workerOut hd =>
    rw [hd.frame.2.2.2.1]
    rfl
  | _ => rfl

/-- `active_` counts the workers that have entered a job and not left it. -/
theorem active_reachable (h : (runs programs workers).Reachable c) :
    c.shared.active = (c.threads.map Thread.active).sum := by
  refine Interleave.account_invariant ?_ (fun s th x s' th' hcover hact => ?_) h
  · rintro c rfl
    refine (Interleave.sum_map_eq_zero fun k th hth => ?_).symm
    rcases start_threads hth with ⟨todo, -, rfl⟩ | ⟨-, rfl⟩
    · rfl
    · rfl
  · exact (act_move hact).active hcover

/-! ### The jobs of a caller -/

/-- What a step adds to the jobs. -/
theorem Move.works (h : Move s th s' th') :
    (s'.works = s.works ∧ th'.todo = th.todo ∧
      (th'.job = th.job ∨ ∃ j, th.job = some j ∧ th'.job = none ∧ s'.returned = j :: s.returned)) ∨
      ∃ n, s'.works = s.works ++ [⟨th.number, n⟩] ∧ th.todo = n :: th'.todo ∧ th.job = none ∧
        th'.job = some s.works.length := by
  cases h with
  | @call k call todo =>
    refine Or.inr ⟨call.count, rfl, rfl, rfl, ?_⟩
    split
    · rfl
    · rfl
  | serialEnd | unlockCaller => exact Or.inl ⟨rfl, rfl, Or.inr ⟨_, rfl, rfl, rfl⟩⟩
  | callerDrain hd | callerOut hd | workerDrain hd | workerOut hd =>
    exact Or.inl ⟨hd.frame.2.2.2.2.2.1, rfl, Or.inl rfl⟩
  | _ => exact Or.inl ⟨rfl, rfl, Or.inl rfl⟩

/-- What a step adds to the calls that have returned. -/
theorem Move.returned (h : Move s th s' th') :
    s'.returned = s.returned ∨ ∃ j, th.job = some j ∧ th'.job = none ∧ s'.works = s.works ∧
      s'.returned = j :: s.returned := by
  cases h with
  | serialEnd | unlockCaller => exact Or.inr ⟨_, rfl, rfl, rfl, rfl⟩
  | callerDrain hd | callerOut hd | workerDrain hd | workerOut hd =>
    exact Or.inl hd.frame.2.2.2.2.2.2
  | _ => exact Or.inl rfl

/-- Jobs stay. -/
theorem Move.works_get (h : Move s th s' th') {w : Job} (hw : s.works[j]? = some w) :
    s'.works[j]? = some w := by
  rcases h.works with ⟨heq, -⟩ | ⟨n, heq, -⟩
  · rwa [heq]
  · rw [heq, List.getElem?_append_left (List.getElem?_eq_some_iff.mp hw).1]
    exact hw

/-- The job of a caller is one that it has handed in. -/
def Mine (s : State) (k : ℕ) (th : Thread) : Prop :=
  ∀ j, th.job = some j → ∃ n, s.works[j]? = some ⟨k, n⟩

theorem mine_reachable (h : (runs programs workers).Reachable c) : Interleave.Each Mine c := by
  refine Interleave.each_invariant ?_ ?_ h
  · rintro c rfl k th hth j hj
    rcases start_threads hth with ⟨todo, -, rfl⟩ | ⟨-, rfl⟩
    · cases hj
    · cases hj
  · intro c i th x s th' hr hK hth hact
    have hmove := act_move hact
    refine ⟨fun j hj => ?_, fun k b _ hb j hj => ?_⟩
    -- the job of the thread is an old one, or the one of this call
    · rcases hmove.works with ⟨-, -, hsame | ⟨m, -, hnone, -⟩⟩ | ⟨n, hworks, -, -, hnew⟩
      · rw [hsame] at hj
        obtain ⟨n, hn⟩ := hK i th hth j hj
        exact ⟨n, hmove.works_get hn⟩
      · rw [hnone] at hj
        cases hj
      · rw [hnew] at hj
        cases hj
        refine ⟨n, ?_⟩
        rw [hworks, List.getElem?_concat_length, (locks_reachable hr i th hth).1]
    -- the works only grow
    · obtain ⟨n, hn⟩ := hK k b hb j hj
      exact ⟨n, hmove.works_get hn⟩

/-- Two threads have no job in common. -/
theorem mine_ne {m : ℕ} (hth : Mine s i th) (hb : Mine s k b) (hne : k ≠ i)
    (hj : th.job = some j) (hm : b.job = some m) : m ≠ j := by
  rintro rfl
  obtain ⟨n, hn⟩ := hth m hj
  obtain ⟨n', hn'⟩ := hb m hm
  rw [hn] at hn'
  cases hn'
  exact hne rfl

/-- Calls that have returned were jobs. -/
theorem returned_lt (h : (runs programs workers).Reachable c) :
    ∀ j ∈ c.shared.returned, j < c.shared.works.length := by
  refine h.invariant_along (I := fun c => ∀ j ∈ c.shared.returned, j < c.shared.works.length)
    ?_ ?_
  · rintro c rfl j hj
    cases hj
  · rintro c ⟨i, x⟩ c' hr hI hstep j hj
    obtain ⟨th, s, th', hth, hrun, rfl⟩ := Interleave.turn_ok hstep
    have hmove := act_move hrun
    -- the works of a call stay in the list
    have hold : ∀ {j : ℕ} {w : Job}, c.shared.works[j]? = some w → j < s.works.length :=
      fun hw => (List.getElem?_eq_some_iff.mp (hmove.works_get hw)).1
    have hkept : j ∈ c.shared.returned → j < s.works.length := fun hj =>
      hold (List.getElem?_eq_getElem (hI j hj))
    change j ∈ s.returned at hj
    -- the job that returns is the one of this thread
    rcases hmove.returned with heq | ⟨m, hm, -, -, heq⟩
    · rw [heq] at hj
      exact hkept hj
    · rw [heq] at hj
      rcases List.mem_cons.mp hj with rfl | hj
      · obtain ⟨n, hn⟩ := mine_reachable hr i th hth j hm
        exact hold hn
      · exact hkept hj

/-- The job of a caller has not returned. -/
def Pending (s : State) (_ : ℕ) (th : Thread) : Prop := ∀ j, th.job = some j → j ∉ s.returned

theorem pending_reachable (h : (runs programs workers).Reachable c) :
    Interleave.Each Pending c := by
  refine Interleave.each_invariant ?_ ?_ h
  · rintro c rfl k th hth j hj
    exact List.not_mem_nil
  · intro c i th x s th' hr hK hth hact
    have hmove := act_move hact
    have hmine := mine_reachable hr
    refine ⟨fun j hj hret => ?_, fun k b hk hb j hj hret => ?_⟩
    -- a call that has returned leaves its thread without a job
    · rcases hmove.returned with heq | ⟨m, hm, hnone, -, heq⟩
      · rw [heq] at hret
        rcases hmove.works with ⟨-, -, hsame | ⟨m, -, hnone, -⟩⟩ | ⟨n, -, -, -, hnew⟩
        · exact hK i th hth j (hsame ▸ hj) hret
        · rw [hnone] at hj
          cases hj
        · rw [hnew] at hj
          cases hj
          exact Nat.lt_irrefl _ (returned_lt hr _ hret)
      · rw [hnone] at hj
        cases hj
    -- another call returns here
    · rcases hmove.returned with heq | ⟨m, hm, -, -, heq⟩
      · rw [heq] at hret
        exact hK k b hb j hj hret
      · rw [heq] at hret
        rcases List.mem_cons.mp hret with rfl | hret
        · exact mine_ne (hmine i th hth) (hmine k b hb) hk hm hj rfl
        · exact hK k b hb j hj hret

/-! ### The job in `job_` -/

/-- What `job_` is, as a thread sees it. -/
def Posted (s : State) (_ : ℕ) : Thread → Prop
  | .caller _ _ p => (p.owns = true → s.job = p.posted) ∧ (p.publishes = true → s.active = 0)
  | .worker _ _ (.drain j _) => s.job = some j
  | .worker _ _ .leave => s.job ≠ none
  | .worker _ _ _ => True

/-- `job_` is set by the caller that holds `caller_`. -/
def Held (s : State) : Prop := s.callerMutex = none → s.job = none

/-- Workers in a job keep `job_` set. -/
theorem Posted.of_active (hb : Posted s k b) (ha : b.active ≠ 0) : s.job ≠ none := by
  cases b with
  | caller => exact absurd rfl ha
  | worker n seen p =>
    cases p with
    | drain j d =>
      rw [show s.job = some j from hb]
      nofun
    | leave => exact hb
    | top => exact absurd rfl ha
    | asleep => exact absurd rfl ha

/-- Without a job no worker is in one. -/
theorem active_eq_zero (h : (runs programs workers).Reachable c)
    (hK : Interleave.Each Posted c) (hj : c.shared.job = none) : c.shared.active = 0 := by
  rw [active_reachable h]
  refine Interleave.sum_map_eq_zero fun k b hb => ?_
  by_contra hne
  exact (hK k b hb).of_active hne hj

/-- Without workers in the job a thread is in none. -/
theorem thread_active_eq_zero (h : (runs programs workers).Reachable c)
    (hb : c.threads[k]? = some b) (ha : c.shared.active = 0) : b.active = 0 := by
  have hle := Interleave.le_sum_of_getElem? Thread.active hb
  rw [← active_reachable h, ha] at hle
  exact Nat.le_zero.mp hle

theorem Held.step (h : Move s th s' th') (hth : Locks s i th) (hp : Posted s i th)
    (hheld : Held s) : Held s' := by
  cases h with
  | lockCaller => nofun
  | lockPublish =>
    -- the lock is held here, so `caller_` is not free
    intro hfree
    have howns := hth.2.1.mpr rfl
    change s.callerMutex = none at hfree
    rw [hfree] at howns
    cases howns
  | finish => exact fun _ => rfl
  | unlockCaller => exact fun _ => hp.1 rfl
  | callerDrain hd | callerOut hd | workerDrain hd | workerOut hd =>
    unfold Held
    rw [hd.frame.1, hd.frame.2.2.1]
    exact hheld
  | _ => exact hheld

theorem Posted.own (h : Move s th s' th') (hth : Locks s i th) (hp : Posted s i th)
    (hheld : Held s) (hactive : s.job = none → s.active = 0) : Posted s' i th' := by
  cases h with
  | @call k call todo =>
    -- a caller that has just called does not own the lock
    split
    · exact ⟨nofun, nofun⟩
    · exact ⟨nofun, nofun⟩
  | serialEnd | unlockCaller => exact ⟨nofun, nofun⟩
  | lockCaller hfree => exact ⟨fun _ => hheld hfree, nofun⟩
  | lockPublish => exact ⟨fun _ => rfl, fun _ => hactive (hp.1 rfl)⟩
  | publish => exact ⟨hp.1, nofun⟩
  | finish => exact ⟨fun _ => rfl, nofun⟩
  -- the drain leaves the job in place
  | callerDrain hd | callerOut hd =>
    refine ⟨fun _ => ?_, nofun⟩
    rw [hd.frame.2.2.1]
    exact hp.1 rfl
  | enter _ _ hj => exact hj
  | pass | rest | rouse | leave => trivial
  | workerDrain hd =>
    show _ = _
    rw [hd.frame.2.2.1]
    exact hp
  | workerOut hd =>
    show _ ≠ _
    rw [hd.frame.2.2.1, show s.job = _ from hp]
    nofun
  | _ => exact hp

theorem Posted.other (h : Move s th s' th') (hth : Locks s i th) (hp : Posted s i th)
    (hb : Locks s k b) (hbp : Posted s k b) (hk : k ≠ i) (hactive : s.active = 0 → b.active = 0) :
    Posted s' k b := by
  -- a caller that holds `caller_` is the only one that does
  have hone : th.owns = true → b.owns = true → False := by
    intro h₁ h₂
    have heq := (hth.2.1.mpr h₁).symm.trans (hb.2.1.mpr h₂)
    exact hk (Option.some.inj heq).symm
  -- a caller that does not own the lock has posted nothing
  have hidle : ∀ {s₁ : State}, th.owns = true → b.active = 0 → Posted s₁ k b := by
    intro s₁ howns hzero
    cases b with
    | caller n todo p =>
      have hno : ¬ p.owns = true := fun hyes => hone howns hyes
      refine ⟨fun hyes => absurd hyes hno, fun hpub => absurd ?_ hno⟩
      cases p <;> first | rfl | cases hpub
    | worker n seen p =>
      cases p with
      | drain j d => cases hzero
      | leave => cases hzero
      | top => trivial
      | asleep => trivial
  cases h with
  -- there was no job, so no worker is in one
  | lockPublish =>
    have hnone : s.job = none := hp.1 rfl
    refine hidle rfl ?_
    by_contra hne
    exact hbp.of_active hne hnone
  | finish _ _ ha => exact hidle rfl (hactive ha)
  -- the mutex is free, so no caller is publishing
  | enter hfree =>
    cases b with
    | caller n todo p =>
      refine ⟨hbp.1, fun hpub => ?_⟩
      have hm := hb.2.2.mpr hpub
      rw [hfree] at hm
      cases hm
    | worker n seen p => cases p <;> exact hbp
  -- one worker fewer is active
  | leave =>
    cases b with
    | caller n todo p =>
      refine ⟨hbp.1, fun hpub => ?_⟩
      show s.active - 1 = 0
      rw [hbp.2 hpub]
    | worker n seen p => cases p <;> exact hbp
  | callerDrain hd | callerOut hd | workerDrain hd | workerOut hd =>
    unfold Posted
    rw [hd.frame.2.2.1, hd.frame.2.2.2.1]
    exact hbp
  | _ => exact hbp

theorem posted_reachable (h : (runs programs workers).Reachable c) :
    Interleave.Each Posted c ∧ Held c.shared := by
  refine h.invariant_along (I := fun c => Interleave.Each Posted c ∧ Held c.shared) ?_ ?_
  · rintro c rfl
    refine ⟨fun k th hth => ?_, fun _ => rfl⟩
    rcases start_threads hth with ⟨todo, -, rfl⟩ | ⟨-, rfl⟩
    · exact ⟨nofun, nofun⟩
    · trivial
  · rintro c ⟨i, x⟩ c' hr ⟨hK, hheld⟩ hstep
    obtain ⟨th, s, th', hth, hrun, rfl⟩ := Interleave.turn_ok hstep
    have hmove := act_move hrun
    have hlocks := locks_reachable hr
    refine ⟨Interleave.Each.turn hth ?_ fun k b hk hb => ?_, ?_⟩
    -- the thread that moves, the other ones, the state between two calls
    · exact Posted.own hmove (hlocks i th hth) (hK i th hth) hheld (active_eq_zero hr hK)
    · exact Posted.other hmove (hlocks i th hth) (hK i th hth) (hlocks k b hb) (hK k b hb) hk
        (thread_active_eq_zero hr hb)
    · exact Held.step hmove (hlocks i th hth) (hK i th hth) hheld

/-- **The job in `job_`** is a pending job of the caller that holds `caller_`. -/
theorem job_owner (h : (runs programs workers).Reachable c) (hj : c.shared.job = some j) :
    ∃ i th, c.shared.callerMutex = some i ∧ c.threads[i]? = some th ∧ th.owns = true ∧
      th.job = some j ∧ j ∉ c.shared.returned := by
  obtain ⟨hposted, hheld⟩ := posted_reachable h
  -- where nobody holds `caller_` there is no job
  cases hm : c.shared.callerMutex with
  | none =>
    rw [hheld hm] at hj
    cases hj
  | some i =>
    obtain ⟨th, hth, howns⟩ := owner_reachable h hm
    have hjob : th.job = some j := by
      have hp := hposted i th hth
      cases th with
      | worker => cases howns
      | caller n todo p =>
        have hpost : p.posted = some j := (hp.1 howns).symm.trans hj
        cases p with
        | idle | serial | lockCaller | lockPublish | unlockCaller => cases hpost
        | _ => exact hpost
    exact ⟨i, th, rfl, hth, howns, hjob, pending_reachable h i th hth j hjob⟩

/-! ### The counters -/

/-- A ticket that a thread has taken is below the next one, and below the number of
chunks once it has been tested. -/
def Drain.Taken (s : State) : Drain → Prop
  | .compare t => t < s.next
  | .serving t => t < s.next ∧ t < s.chunks
  | _ => True

/-- The counters as the thread that sets them up, and those that work, see them. -/
def Counters (s : State) (_ : ℕ) : Thread → Prop
  | .caller _ _ (.setChunks _) => s.next = 0
  | .caller _ _ (.setRemaining j) => s.next = 0 ∧ s.chunks = chunksOf (s.count j)
  | .caller _ _ (.publish j) | .caller _ _ (.notifyAll j) => s.chunks = chunksOf (s.count j)
  | .caller _ _ (.drain j d) => s.chunks = chunksOf (s.count j) ∧ d.Taken s
  | .caller _ _ (.lockWait j) | .caller _ _ (.asleep j) =>
    s.chunks = chunksOf (s.count j) ∧ s.chunks ≤ s.next
  | .worker _ _ (.drain _ d) => d.Taken s
  | _ => True

theorem Drain.Taken.mono {d : Drain} (h : d.Taken s) (hnext : s.next ≤ s'.next)
    (hchunks : s'.chunks = s.chunks) : d.Taken s' := by
  cases d with
  | compare t => exact Nat.lt_of_lt_of_le h hnext
  | serving t => exact ⟨Nat.lt_of_lt_of_le h.1 hnext, hchunks ▸ h.2⟩
  | _ => trivial

theorem DrainMove.taken {d d' : Drain} (h : DrainMove s j d s' (some d')) (hd : d.Taken s) :
    d'.Taken s' := by
  cases h with
  | take => exact Nat.lt_succ_self _
  | start ht => exact ⟨hd, ht⟩
  | _ => trivial

theorem DrainMove.next_le {d : Drain} {d' : Option Drain} (h : DrainMove s j d s' d') :
    s.next ≤ s'.next := by
  cases h with
  | take => exact Nat.le_succ _
  | _ => exact Nat.le_refl _

theorem DrainMove.out {d : Drain} (h : DrainMove s j d s' none) (hd : d.Taken s) :
    s'.chunks ≤ s'.next := by
  cases h with
  | spent ht => exact Nat.le_of_lt (Nat.lt_of_le_of_lt ht hd)

/-- What a job counts does not change. -/
theorem Move.count (h : Move s th s' th') {w : Job} (hw : s.works[j]? = some w) :
    s'.count j = s.count j := by
  rw [State.count, State.count, hw, h.works_get hw]

theorem DrainMove.count {d : Drain} {d' : Option Drain} (h : DrainMove s j d s' d') (m : ℕ) :
    s'.count m = s.count m := by
  rw [State.count, State.count, h.frame.2.2.2.2.2.1]

theorem Counters.own (h : Move s th s' th') (hc : Counters s i th) : Counters s' i th' := by
  cases h with
  -- a fresh call has no counters yet
  | @call k call todo =>
    split
    · trivial
    · trivial
  | setNext => exact rfl
  | setChunks => exact ⟨hc, rfl⟩
  | setRemaining => exact hc.2
  | notifyAll => exact ⟨hc, trivial⟩
  -- a draining thread has taken no more than is there
  | callerDrain hd =>
    refine ⟨?_, hd.taken hc.2⟩
    rw [hd.frame.2.2.2.2.1, hd.count]
    exact hc.1
  | callerOut hd =>
    refine ⟨?_, hd.out hc.2⟩
    rw [hd.frame.2.2.2.2.1, hd.count]
    exact hc.1
  | workerDrain hd => exact hd.taken hc
  | publish | sleep | wake => exact hc
  | _ => trivial

/-- A thread that neither holds `caller_` nor works on a job sees nothing. -/
theorem Counters.of_idle (howns : b.owns = false) (hactive : b.active = 0) : Counters s k b := by
  cases b with
  | caller n todo p =>
    cases p with
    | idle | serial | lockCaller => trivial
    | _ => cases howns
  | worker n seen p =>
    cases p with
    | drain => cases hactive
    | _ => trivial

/-- The counters go on, with tickets taken. -/
theorem Counters.mono (hb : Counters s k b) (hset : b.publishes = true → s'.next = s.next)
    (hnext : s.next ≤ s'.next) (hchunks : s'.chunks = s.chunks)
    (hcount : ∀ j, b.job = some j → s'.count j = s.count j) : Counters s' k b := by
  cases b with
  | caller n todo p =>
    cases p with
    -- while a caller sets the counters, nobody moves `next`
    | setChunks j => exact (hset rfl).trans hb
    | setRemaining j =>
      exact ⟨(hset rfl).trans hb.1, by rw [hchunks, hcount j rfl]; exact hb.2⟩
    | publish j | notifyAll j =>
      show _ = _
      rw [hchunks, hcount j rfl]
      exact hb
    -- behind it `next` only grows
    | drain j d =>
      exact ⟨by rw [hchunks, hcount j rfl]; exact hb.1, hb.2.mono hnext hchunks⟩
    | lockWait j | asleep j =>
      refine ⟨by rw [hchunks, hcount j rfl]; exact hb.1, ?_⟩
      rw [hchunks]
      exact Nat.le_trans hb.2 hnext
    | _ => trivial
  | worker n seen p =>
    cases p with
    | drain j d => exact Drain.Taken.mono hb hnext hchunks
    | _ => trivial

/-- A thread that takes a ticket. -/
theorem Move.next (h : Move s th s' th') (hreset : th.publishes = false) :
    s'.chunks = s.chunks ∧
      (s'.next = s.next ∨ s.next ≤ s'.next ∧ (th.owns = true ∨ th.active ≠ 0)) := by
  cases h with
  | setNext | setChunks | setRemaining => cases hreset
  | callerDrain hd => exact ⟨hd.frame.2.2.2.2.1, Or.inr ⟨hd.next_le, Or.inl rfl⟩⟩
  | callerOut hd => exact ⟨hd.frame.2.2.2.2.1, Or.inr ⟨hd.next_le, Or.inl rfl⟩⟩
  | workerDrain hd => exact ⟨hd.frame.2.2.2.2.1, Or.inr ⟨hd.next_le, Or.inr (nofun)⟩⟩
  | workerOut hd => exact ⟨hd.frame.2.2.2.2.1, Or.inr ⟨hd.next_le, Or.inr (nofun)⟩⟩
  | _ => exact ⟨rfl, Or.inl rfl⟩

/-- A caller that holds `mutex_` holds `caller_`. -/
theorem Thread.owns_of_publishes (h : b.publishes = true) : b.owns = true := by
  cases b with
  | worker => cases h
  | caller n todo p =>
    cases p with
    | setNext | setChunks | setRemaining | publish => rfl
    | _ => cases h

/-- While a caller sets up its job no worker is in one. -/
theorem Posted.active_eq_zero (hb : Posted s k b) (h : b.publishes = true) : s.active = 0 := by
  cases b with
  | worker => cases h
  | caller n todo p => exact hb.2 h

/-- Only one thread holds `caller_`. -/
theorem owner_unique (hth : Locks s i th) (hb : Locks s k b) (h₁ : th.owns = true)
    (h₂ : b.owns = true) : k = i :=
  (Option.some.inj ((hth.2.1.mpr h₁).symm.trans (hb.2.1.mpr h₂))).symm

theorem counters_reachable (h : (runs programs workers).Reachable c) :
    Interleave.Each Counters c := by
  refine Interleave.each_invariant ?_ ?_ h
  · rintro c rfl k th hth
    rcases start_threads hth with ⟨todo, -, rfl⟩ | ⟨-, rfl⟩
    · trivial
    · trivial
  · intro c i th x s th' hr hK hth hact
    have hmove := act_move hact
    have hlocks := locks_reachable hr
    obtain ⟨hposted, -⟩ := posted_reachable hr
    refine ⟨Counters.own hmove (hK i th hth), fun k b hk hb => ?_⟩
    have hone : th.owns = true → b.owns = true → False := fun h₁ h₂ =>
      hk (owner_unique (hlocks i th hth) (hlocks k b hb) h₁ h₂)
    cases hpub : th.publishes with
    | true =>
      -- no other thread works while one sets up its job
      refine Counters.of_idle ?_ ?_
      · exact Bool.eq_false_iff.mpr (hone (Thread.owns_of_publishes hpub))
      · exact thread_active_eq_zero hr hb ((hposted i th hth).active_eq_zero hpub)
    | false =>
      obtain ⟨hchunks, hnext⟩ := hmove.next hpub
      refine (hK k b hb).mono (fun hbpub => ?_) ?_ hchunks fun j hj => ?_
      · rcases hnext with hnext | ⟨-, howns | hactive⟩
        · exact hnext
        · exact (hone howns (Thread.owns_of_publishes hbpub)).elim
        · have hzero := (hposted k b hb).active_eq_zero hbpub
          exact absurd (thread_active_eq_zero hr hth hzero) hactive
      · rcases hnext with hnext | ⟨hle, -⟩
        · exact Nat.le_of_eq hnext.symm
        · exact hle
      · obtain ⟨n, hn⟩ := mine_reachable hr k b hb j hj
        exact hmove.count hn

end Pool
end RowStore
end Dsv41Overlay
