import Dsv41Overlay.RowStore.PoolRuns

/-!
# What the pool serves

The account of the job in the pool (`Balanced`): each ticket given out is held by one
thread or noted in the log once, and `remaining_` is what has not been given out or is
still owed. `Move.settles` is what one step does to it, `balanced_reachable` what a run
keeps.

A caller that has left `drain` has seen the tickets used up. If it then finds no worker in
its job, no ticket is held and everything has been served (`served_of_quiet`), and what a
call that has returned leaves in the log is each of its indices, once
(`served_of_returned`).
-/

namespace Dsv41Overlay
namespace RowStore
namespace Pool

variable {s s' : State} {th th' b : Thread} {i k j : ℕ}
variable {programs : List (List Call)} {workers : ℕ} {c : Interleave State Thread}

/-! ### Who serves what -/

/-- The index that a thread is serving, with its job. -/
def Thread.serving : Thread → Option (ℕ × ℕ)
  | .caller _ _ (.serial j i) => some (j, i)
  | .caller _ _ (.drain j (.serving t)) | .worker _ _ (.drain j (.serving t)) => some (j, t)
  | _ => none

/-- A thread serves without the pool, or in `drain`. -/
theorem serving_cases {t : ℕ} (h : th.serving = some (j, t)) :
    (∃ n todo, th = .caller n todo (.serial j t)) ∨ th.drains = some (j, .serving t) := by
  cases th with
  | caller n todo p =>
    cases p with
    | serial m u =>
      cases h
      exact Or.inl ⟨n, todo, rfl⟩
    | drain m d =>
      cases d with
      | serving u =>
        cases h
        exact Or.inr rfl
      | _ => cases h
    | _ => cases h
  | worker n seen p =>
    cases p with
    | drain m d =>
      cases d with
      | serving u =>
        cases h
        exact Or.inr rfl
      | _ => cases h
    | _ => cases h

/-- A thread in `drain` is the caller of the job, or a worker in it. -/
theorem drains_cases {d : Drain} (h : th.drains = some (j, d)) :
    (∃ n todo, th = .caller n todo (.drain j d)) ∨ ∃ n seen, th = .worker n seen (.drain j d) := by
  cases th with
  | caller n todo p =>
    cases p with
    | drain m e =>
      cases h
      exact Or.inl ⟨n, todo, rfl⟩
    | _ => cases h
  | worker n seen p =>
    cases p with
    | drain m e =>
      cases h
      exact Or.inr ⟨n, seen, rfl⟩
    | _ => cases h

theorem chunksOf_eq (n : ℕ) : chunksOf n = n := by
  unfold chunksOf kChunk
  omega

/-- The counters are those of the job that counts. -/
theorem Counters.chunks (hb : Counters s k b) (h : b.counting = some j) :
    s.chunks = s.count j := by
  rw [← chunksOf_eq (s.count j)]
  -- only a caller counts, from `publish` to the end of its wait
  cases b with
  | worker => cases h
  | caller n todo p =>
    cases p with
    | publish m | notifyAll m =>
      cases h
      exact hb
    | drain m d | lockWait m | asleep m =>
      cases h
      exact hb.1
    | _ => cases h

/-- A thread that counts holds `caller_`, and its job is the one in `job_`. -/
theorem owns_of_counting (h : b.counting = some j) : b.owns = true ∧ b.job = some j := by
  cases b with
  | worker => cases h
  | caller n todo p =>
    cases p with
    | publish m | notifyAll m | drain m d | lockWait m | asleep m => exact ⟨rfl, h⟩
    | _ => cases h

theorem Posted.job_counting (hb : Posted s k b) (h : b.counting = some j) : s.job = some j := by
  cases b with
  | worker => cases h
  | caller n todo p =>
    cases p with
    | publish m | notifyAll m | drain m d | lockWait m | asleep m => exact (hb.1 rfl).trans h
    | _ => cases h

/-- **A thread in `drain` works on the job in `job_`**, and the caller of that job is
counting. -/
theorem drains_counting (h : (runs programs workers).Reachable c) (hb : c.threads[k]? = some b)
    {d : Drain} (hd : b.drains = some (j, d)) :
    c.shared.job = some j ∧
      ∃ (i : ℕ) (th : Thread), c.threads[i]? = some th ∧ th.counting = some j := by
  obtain ⟨hposted, -⟩ := posted_reachable h
  have hp := hposted k b hb
  rcases drains_cases hd with ⟨n, todo, rfl⟩ | ⟨n, seen, rfl⟩
  -- a caller counts for itself, a worker for the caller whose job it drains
  · exact ⟨hp.1 rfl, k, _, hb, rfl⟩
  · have hjob : c.shared.job = some j := hp
    refine ⟨hjob, ?_⟩
    obtain ⟨i, th, -, hth, howns, hthjob, -⟩ := job_owner h hjob
    refine ⟨i, th, hth, ?_⟩
    have hpth := hposted i th hth
    -- a caller that is still setting up has no worker in its job
    have hpub : th.publishes ≠ true := fun hpub =>
      absurd (thread_active_eq_zero h hb (hpth.active_eq_zero hpub)) nofun
    cases th with
    | worker => cases howns
    | caller n todo p =>
      have hpost : p.posted = some j := (hpth.1 howns).symm.trans hjob
      cases p with
      | idle | serial | lockCaller | lockPublish | unlockCaller => cases hpost
      | setNext | setChunks | setRemaining => exact absurd rfl hpub
      | _ => exact hthjob

/-- A thread in `drain` has its ticket. -/
theorem taken_reachable (h : (runs programs workers).Reachable c) (hb : c.threads[k]? = some b)
    {d : Drain} (hd : b.drains = some (j, d)) : d.Taken c.shared := by
  have hc := counters_reachable h k b hb
  rcases drains_cases hd with ⟨n, todo, rfl⟩ | ⟨n, seen, rfl⟩
  · exact hc.2
  · exact hc

/-- A thread serves an index that its job has. -/
theorem serving_lt (h : (runs programs workers).Reachable c) (hb : c.threads[k]? = some b)
    {t : ℕ} (hd : b.drains = some (j, .serving t)) : t < c.shared.count j := by
  obtain ⟨-, i, th, hth, hcounting⟩ := drains_counting h hb hd
  rw [← (counters_reachable h i th hth).chunks hcounting]
  exact (taken_reachable h hb hd).2

/-- The chunk of a ticket is its index. -/
theorem State.serve_chunk {t : ℕ} (ht : t < s.count j) :
    s.serve j (t * kChunk) (min (t * kChunk + kChunk) (s.count j)) =
      { s with log := s.log ++ [(j, t)] } := by
  have hone : min (t * kChunk + kChunk) (s.count j) - t * kChunk = 1 := by
    unfold kChunk
    omega
  have hfirst : t * kChunk = t := Nat.mul_one t
  unfold State.serve
  rw [hone, hfirst]
  rfl

theorem State.serve_one (s : State) (j i : ℕ) :
    s.serve j i (i + 1) = { s with log := s.log ++ [(j, i)] } := by
  unfold State.serve
  rw [Nat.add_sub_cancel_left]
  rfl

/-- What a step notes: nothing, or the index that its thread serves. -/
theorem Move.log (h : Move s th s' th')
    (hlt : ∀ j t, th.drains = some (j, .serving t) → t < s.count j) :
    s'.log = s.log ∨ ∃ j t, th.serving = some (j, t) ∧ t < s.count j ∧
      s'.log = s.log ++ [(j, t)] := by
  cases h with
  | serial hi =>
    refine Or.inr ⟨_, _, rfl, hi, ?_⟩
    rw [State.serve_one]
  | callerDrain hd | workerDrain hd =>
    cases hd with
    -- the index that is served is one of the job's
    | serve =>
      have ht := hlt _ _ rfl
      refine Or.inr ⟨_, _, rfl, ht, ?_⟩
      rw [State.serve_chunk ht]
    | _ => exact Or.inl rfl
  | callerOut hd | workerOut hd =>
    cases hd with
    | spent => exact Or.inl rfl
  | _ => exact Or.inl rfl

/-- **Threads serve different jobs, or count together**: what one serves is not of the job
of another, unless that other is counting. -/
theorem serving_ne (h : (runs programs workers).Reachable c) (hth : c.threads[i]? = some th)
    (hb : c.threads[k]? = some b) (hk : k ≠ i) {t m : ℕ} (hs : th.serving = some (j, t))
    (hm : b.job = some m) (hno : b.counting = none) : m ≠ j := by
  have hmine := mine_reachable h
  have hjob : th.job = some j → m ≠ j := fun hj => mine_ne (hmine i th hth) (hmine k b hb) hk hj hm
  rcases serving_cases hs with ⟨n, todo, rfl⟩ | hd
  · exact hjob rfl
  rcases drains_cases hd with ⟨n, todo, rfl⟩ | ⟨n, seen, rfl⟩
  · exact hjob rfl
  · rintro rfl
    -- the caller of the job counts, so it is another thread
    obtain ⟨-, i', o, ho, hcounting⟩ := drains_counting h hth rfl
    by_cases hki : k = i'
    · subst hki
      cases hb.symm.trans ho
      rw [hno] at hcounting
      cases hcounting
    · exact mine_ne (hmine i' o ho) (hmine k b hb) hki (owns_of_counting hcounting).2 hm rfl

/-! ### What has been served -/

/-- The first `n` indices of the job have been served once, and no other. -/
def Served (s : State) (j n : ℕ) : Prop :=
  ∀ t, s.log.count (j, t) = if t < n then 1 else 0

/-- A note on another job. -/
theorem count_append_ne {l : List (ℕ × ℕ)} {m t u : ℕ} (h : m ≠ j) :
    (l ++ [(j, u)]).count (m, t) = l.count (m, t) := by
  have hne : (m, t) ∉ [(j, u)] := by
    rw [List.mem_singleton]
    rintro heq
    exact h (congrArg Prod.fst heq)
  rw [List.count_append, List.count_eq_zero.mpr hne, Nat.add_zero]

theorem count_append_self (l : List (ℕ × ℕ)) (t u : ℕ) :
    (l ++ [(j, u)]).count (j, t) = l.count (j, t) + if u = t then 1 else 0 := by
  rw [List.count_append, List.count_singleton]
  congr 1
  by_cases h : u = t
  · subst h
    rw [if_pos rfl, if_pos (beq_self_eq_true _)]
  · rw [if_neg h, if_neg]
    intro heq
    exact h (congrArg Prod.snd (eq_of_beq heq))

/-- **What is noted is an index of a job.** -/
theorem log_known (h : (runs programs workers).Reachable c) :
    ∀ e ∈ c.shared.log, e.2 < c.shared.count e.1 := by
  refine h.invariant_along (I := fun c => ∀ e ∈ c.shared.log, e.2 < c.shared.count e.1) ?_ ?_
  · rintro c rfl e he
    cases he
  · rintro c ⟨i, x⟩ c' hr hI hstep e he
    obtain ⟨th, s, th', hth, hrun, rfl⟩ := Interleave.turn_ok hstep
    have hmove := act_move hrun
    -- the jobs of the earlier notes keep their length
    have hkept : e.2 < c.shared.count e.1 → e.2 < s.count e.1 := by
      intro hlt
      cases hw : c.shared.works[e.1]? with
      | none =>
        rw [State.count, hw] at hlt
        cases hlt
      | some w => rwa [hmove.count hw]
    change e ∈ s.log at he
    apply hkept
    rcases hmove.log (fun j t hd => serving_lt hr hth hd) with heq | ⟨j, t, -, hlt, heq⟩
    · exact hI e (heq ▸ he)
    · rw [heq, List.mem_append, List.mem_singleton] at he
      rcases he with he | rfl
      · exact hI e he
      · exact hlt

/-- A job that is not in the pool has been served as far as its caller has come. -/
def Noted (s : State) (_ : ℕ) : Thread → Prop
  | .caller _ _ (.serial j i) => i ≤ s.count j ∧ Served s j i
  | .caller _ _ (.lockCaller j) | .caller _ _ (.lockPublish j) | .caller _ _ (.setNext j)
  | .caller _ _ (.setChunks j) | .caller _ _ (.setRemaining j) => Served s j 0
  | _ => True

/-- A step of another thread that serves none of this job. -/
theorem Noted.other (hb : Noted s k b) (hcount : ∀ j, b.job = some j → s'.count j = s.count j)
    (hlog : ∀ j, b.job = some j → b.counting = none →
      ∀ t, s'.log.count (j, t) = s.log.count (j, t)) : Noted s' k b := by
  cases b with
  | worker => trivial
  | caller n todo p =>
    have hserved : ∀ {j m : ℕ}, p.job = some j → p.counting = none → Served s j m →
        Served s' j m := by
      intro j m hj hc hs t
      rw [hlog j hj hc t]
      exact hs t
    -- only the serial loop and the callers ahead of `publish` carry notes
    cases p with
    | serial j i =>
      refine ⟨?_, hserved rfl rfl hb.2⟩
      rw [hcount j rfl]
      exact hb.1
    | lockCaller | lockPublish | setNext | setChunks | setRemaining => exact hserved rfl rfl hb
    | _ => trivial

/-- What a step of another thread does to the notes of a job that does not count. -/
theorem log_other (h : (runs programs workers).Reachable c) (hth : c.threads[i]? = some th)
    (hmove : Move c.shared th s' th') (hb : c.threads[k]? = some b) (hk : k ≠ i)
    (hj : b.job = some j) (hno : b.counting = none) (t : ℕ) :
    s'.log.count (j, t) = c.shared.log.count (j, t) := by
  rcases hmove.log (fun j t hd => serving_lt h hth hd) with heq | ⟨m, u, hs, -, heq⟩
  · rw [heq]
  · rw [heq, count_append_ne (serving_ne h hth hb hk hs hj hno)]

theorem count_other (h : (runs programs workers).Reachable c)
    (hmove : Move c.shared th s' th') (hb : c.threads[k]? = some b) (hj : b.job = some j) :
    s'.count j = c.shared.count j := by
  obtain ⟨n, hn⟩ := mine_reachable h k b hb j hj
  exact hmove.count hn

theorem noted_reachable (h : (runs programs workers).Reachable c) : Interleave.Each Noted c := by
  refine Interleave.each_invariant ?_ ?_ h
  · rintro c rfl k th hth
    rcases start_threads hth with ⟨todo, -, rfl⟩ | ⟨-, rfl⟩
    · trivial
    · trivial
  · intro c i th x s th' hr hK hth hact
    have hmove := act_move hact
    refine ⟨?_, fun k b hk hb => ?_⟩
    -- the thread that moves
    · have hn := hK i th hth
      have hfresh : ∀ t, c.shared.log.count (c.shared.works.length, t) = 0 := by
        intro t
        rw [List.count_eq_zero]
        intro hmem
        have hlt := log_known hr _ hmem
        rw [State.count, List.getElem?_eq_none (Nat.le_refl _)] at hlt
        cases hlt
      generalize hs : c.shared = s₀ at *
      cases hmove with
      | @call k call todo =>
        -- a new job has no notes
        split
        · exact ⟨Nat.zero_le _, hfresh⟩
        · exact hfresh
      | serial hi =>
        refine ⟨hi, fun t => ?_⟩
        -- one more index is noted
        rw [State.serve_one, count_append_self, hn.2 t]
        split <;> split <;> split <;> omega
      | lockCaller | lockPublish | setNext | setChunks => exact hn
      | _ => trivial
    -- every other one
    · exact (hK k b hb).other (fun j hj => count_other hr hmove hb hj)
        fun j hj hno t => log_other hr hth hmove hb hk hj hno t

/-! ### The tickets of the job that counts -/

/-- The ticket `t` is taken and its index not yet noted. -/
def Drain.holds (chunks t : ℕ) : Drain → ℕ
  | .compare u => if u = t ∧ t < chunks then 1 else 0
  | .serving u => if u = t then 1 else 0
  | _ => 0

/-- A ticket is taken and not yet taken off `remaining_`. -/
def Drain.owes (chunks : ℕ) : Drain → ℕ
  | .compare u => if u < chunks then 1 else 0
  | .serving _ | .decrement => 1
  | _ => 0

def Thread.holds (chunks t : ℕ) (th : Thread) : ℕ :=
  match th.drains with
  | some (_, d) => d.holds chunks t
  | none => 0

def Thread.owes (chunks : ℕ) (th : Thread) : ℕ :=
  match th.drains with
  | some (_, d) => d.owes chunks
  | none => 0

/-- **The account of a job.** Each ticket given out is held by one thread or noted once,
and `remaining_` is what has not been given out or is still owed. -/
structure Balanced (c : Interleave State Thread) (j : ℕ) : Prop where
  tickets : ∀ t, c.shared.log.count (j, t) +
    (c.threads.map (Thread.holds c.shared.chunks t)).sum =
      if t < min c.shared.next c.shared.chunks then 1 else 0
  remaining : c.shared.remaining + min c.shared.next c.shared.chunks =
    c.shared.chunks + (c.threads.map (Thread.owes c.shared.chunks)).sum

/-- What a step of the job does to its account. -/
structure Settles (s : State) (th : Thread) (s' : State) (th' : Thread) (j : ℕ) : Prop where
  chunks : s'.chunks = s.chunks
  tickets : ∀ t, s'.log.count (j, t) + th'.holds s.chunks t +
      (if t < min s.next s.chunks then 1 else 0) =
    s.log.count (j, t) + th.holds s.chunks t + if t < min s'.next s.chunks then 1 else 0
  remaining : th.owes s.chunks ≤ s.remaining →
    s'.remaining + min s'.next s.chunks + th.owes s.chunks =
      s.remaining + min s.next s.chunks + th'.owes s.chunks

theorem Balanced.step (hb : Balanced c j) (hth : c.threads[i]? = some th)
    (h : Settles c.shared th s' th' j) : Balanced ⟨s', c.threads.set i th'⟩ j := by
  constructor
  -- what the log gains of a ticket, the thread gives up
  · intro t
    have hset := Interleave.sum_map_set (i := i) (Thread.holds c.shared.chunks t) th' hth
    have hold := hb.tickets t
    have hstep := h.tickets t
    show s'.log.count (j, t) + ((c.threads.set i th').map (Thread.holds s'.chunks t)).sum =
      if t < min s'.next s'.chunks then 1 else 0
    rw [h.chunks]
    -- what `remaining` loses, the thread no longer owes
    omega
  · have hset := Interleave.sum_map_set (i := i) (Thread.owes c.shared.chunks) th' hth
    have hle := Interleave.le_sum_of_getElem? (Thread.owes c.shared.chunks) hth
    have hold := hb.remaining
    have hstep := h.remaining (by omega)
    show s'.remaining + min s'.next s'.chunks =
      s'.chunks + ((c.threads.set i th').map (Thread.owes s'.chunks)).sum
    rw [h.chunks]
    omega

/-- A step of `drain` settles what it takes. -/
theorem DrainMove.settles {d : Drain} {d' : Option Drain} (h : DrainMove s j d s' d')
    (htaken : d.Taken s) (hlt : ∀ t, d = .serving t → t < s.count j) (hth : th.drains = some (j, d))
    (hth' : th'.drains = d'.map fun d => (j, d)) : Settles s th s' th' j := by
  -- the weights of a draining thread are those of its place in the loop
  have hholds : ∀ t, th.holds s.chunks t = d.holds s.chunks t := fun t => by
    rw [Thread.holds, hth]
  have howes : th.owes s.chunks = d.owes s.chunks := by rw [Thread.owes, hth]
  have hholds' : ∀ t, th'.holds s.chunks t = (d'.map (Drain.holds s.chunks t)).getD 0 := fun t => by
    rw [Thread.holds, hth']
    cases d' <;> rfl
  have howes' : th'.owes s.chunks = (d'.map (Drain.owes s.chunks)).getD 0 := by
    rw [Thread.owes, hth']
    cases d' <;> rfl
  refine ⟨h.frame.2.2.2.2.1, fun t => ?_, fun hcover => ?_⟩
  -- the tickets
  · rw [hholds t, hholds' t]
    cases h with
    | take =>
      simp only [Option.map_some, Option.getD_some, Drain.holds]
      -- a ticket is held from the `fetch_add` on
      split <;> split <;> split <;> omega
    | @spent u hu =>
      have hzero : Drain.holds s.chunks t (.compare u) = 0 := if_neg (by omega)
      rw [hzero]
      -- a ticket that passed the comparison weighs the same
      rfl
    | @start u hu =>
      have hsame : Drain.holds s.chunks t (.compare u) = Drain.holds s.chunks t (.serving u) := by
        simp only [Drain.holds]
        split <;> split <;> omega
      rw [hsame]
      rfl
    | serve =>
      -- the ticket goes from the thread to the log
      rw [State.serve_chunk (hlt _ rfl)]
      simp only [Option.map_some, Option.getD_some, Drain.holds, count_append_self]
      omega
    | last | decrement | notify => rfl
  -- what is owed
  · rw [howes, howes']
    rw [howes] at hcover
    cases h with
    | take =>
      simp only [Option.map_some, Option.getD_some, Drain.owes]
      split <;> omega
    | spent ht =>
      simp only [Option.map_none, Option.getD_none, Drain.owes]
      rw [if_neg (Nat.not_lt.mpr ht)]
    | start ht =>
      simp only [Option.map_some, Option.getD_some, Drain.owes]
      rw [if_pos ht]
    | serve => rfl
    | last | decrement =>
      simp only [Option.map_some, Option.getD_some, Drain.owes] at hcover ⊢
      omega
    | notify => rfl

/-- A step outside of `drain` takes nothing. -/
theorem Settles.of_idle (hchunks : s'.chunks = s.chunks) (hnext : s'.next = s.next)
    (hremaining : s'.remaining = s.remaining)
    (hlog : ∀ t, s'.log.count (j, t) = s.log.count (j, t))
    (hth : ∀ d, th.drains = some d → d.2 = .ticket)
    (hth' : ∀ d, th'.drains = some d → d.2 = .ticket) : Settles s th s' th' j := by
  -- a thread that holds no ticket weighs nothing
  have hholds : ∀ {b : Thread} {n t : ℕ}, (∀ d, b.drains = some d → d.2 = .ticket) →
      b.holds n t = 0 := by
    intro b n t hb
    unfold Thread.holds
    split
    · next m d hd =>
      rw [show d = .ticket from hb _ hd]
      rfl
    · rfl
  have howes : ∀ {b : Thread} {n : ℕ}, (∀ d, b.drains = some d → d.2 = .ticket) →
      b.owes n = 0 := by
    intro b n hb
    unfold Thread.owes
    split
    · next m d hd =>
      rw [show d = .ticket from hb _ hd]
      rfl
    · rfl
  refine ⟨hchunks, fun t => ?_, fun _ => ?_⟩
  · rw [hholds hth, hholds hth', hlog t, hnext]
  · rw [howes hth, howes hth', hremaining, hnext]

/-- The stores of `run` to the counters. -/
def Thread.resets : Thread → Bool
  | .caller _ _ (.setNext _) | .caller _ _ (.setChunks _) | .caller _ _ (.setRemaining _) => true
  | _ => false

/-- **A step by a thread that sets no counter settles** the account of the job that counts. -/
theorem Move.settles (h : Move s th s' th') (hreset : th.resets = false)
    (hjob : ∀ m d, th.drains = some (m, d) → m = j ∧ d.Taken s)
    (hlt : ∀ m t, th.drains = some (m, .serving t) → t < s.count m)
    (hserial : ∀ m t, th.serving = some (m, t) → th.drains = none → m ≠ j) :
    Settles s th s' th' j := by
  cases h with
  | setNext | setChunks | setRemaining => cases hreset
  -- both loops drain the job that the thread has
  | callerDrain hd | callerOut hd | workerDrain hd | workerOut hd =>
    obtain ⟨rfl, htaken⟩ := hjob _ _ rfl
    exact hd.settles htaken (fun t ht => hlt _ t (by rw [ht]; rfl)) rfl rfl
  -- the serial loop serves a job of its own
  | serial =>
    refine Settles.of_idle rfl rfl rfl (fun t => ?_) nofun nofun
    rw [State.serve_one]
    exact count_append_ne (Ne.symm (hserial _ _ rfl rfl))
  | @call k call todo =>
    refine Settles.of_idle rfl rfl rfl (fun _ => rfl) nofun fun d hd => ?_
    split at hd
    · cases hd
    · cases hd
  | notifyAll | enter =>
    refine Settles.of_idle rfl rfl rfl (fun _ => rfl) nofun fun d hd => ?_
    cases hd
    rfl
  | _ => exact Settles.of_idle rfl rfl rfl (fun _ => rfl) nofun nofun

/-- A thread that counts did so before, or has just set `remaining_`. -/
theorem Move.counting (h : Move s th s' th') (hc : th'.counting = some j) :
    th.counting = some j ∨ ∃ n todo, th = .caller n todo (.setRemaining j) ∧
      s' = { s with remaining := chunksOf (s.count j) } ∧ th' = .caller n todo (.publish j) := by
  cases h with
  | @call k call todo =>
    split at hc
    · cases hc
    · cases hc
  | setRemaining =>
    cases hc
    exact Or.inr ⟨_, _, rfl, rfl, rfl⟩
  | publish | notifyAll | callerDrain | callerOut | sleep | wake => exact Or.inl hc
  | _ => cases hc

/-- With no worker in the job, only the thread that holds `caller_` may be in `drain`. -/
theorem drains_eq_none (h : (runs programs workers).Reachable c) (hth : c.threads[i]? = some th)
    (howns : th.owns = true) (hactive : c.shared.active = 0) (hb : c.threads[k]? = some b)
    (hk : k ≠ i) : b.drains = none := by
  have hzero := thread_active_eq_zero h hb hactive
  have hlocks := locks_reachable h
  -- two owners of `caller_` would be one thread
  have hno : b.owns ≠ true := fun hyes =>
    hk (owner_unique (hlocks i th hth) (hlocks k b hb) howns hyes)
  cases b with
  | caller n todo p =>
    cases p with
    | drain => exact absurd rfl hno
    | _ => rfl
  | worker n seen p =>
    cases p with
    | drain => cases hzero
    | _ => rfl

/-- A thread that sets a counter holds `mutex_`. -/
theorem Thread.publishes_of_resets (h : b.resets = true) : b.publishes = true := by
  cases b with
  | worker => cases h
  | caller n todo p =>
    cases p with
    | setNext | setChunks | setRemaining => rfl
    | _ => cases h

/-- **A job starts balanced**: when `remaining_` is set, the counters are those of a job that
nothing has been done for, and no thread is in `drain`. -/
theorem balanced_setRemaining (hr : (runs programs workers).Reachable c) {n : ℕ}
    {todo : List Call} (hth : c.threads[k]? = some (.caller n todo (.setRemaining j))) :
    Balanced ⟨{ c.shared with remaining := chunksOf (c.shared.count j) },
      c.threads.set k (.caller n todo (.publish j))⟩ j := by
  obtain ⟨hposted, -⟩ := posted_reachable hr
  have hc : c.shared.next = 0 ∧ c.shared.chunks = chunksOf (c.shared.count j) :=
    counters_reachable hr k _ hth
  have hfresh : Served c.shared j 0 := noted_reachable hr k _ hth
  -- nobody drains while the counters are set
  have hidle : ∀ (m : ℕ) (o : Thread), (c.threads.set k (.caller n todo (.publish j)))[m]? =
      some o → o.drains = none := by
    intro m o ho
    by_cases hm : m = k
    · subst hm
      rw [List.getElem?_set_self (List.getElem?_eq_some_iff.mp hth).1] at ho
      cases ho
      rfl
    · rw [List.getElem?_set_ne (Ne.symm hm)] at ho
      exact drains_eq_none hr hth rfl ((hposted k _ hth).active_eq_zero rfl) ho hm
  constructor
  · intro t
    -- no ticket is out, and none is noted
    show c.shared.log.count (j, t) + (List.map _ (c.threads.set k _)).sum =
      if t < min c.shared.next c.shared.chunks then 1 else 0
    rw [Interleave.sum_map_eq_zero fun m o ho => by rw [Thread.holds, hidle m o ho], hc.1,
      Nat.zero_min]
    exact hfresh t
  -- all chunks are still owed
  · show chunksOf (c.shared.count j) + min c.shared.next c.shared.chunks =
      c.shared.chunks + (List.map _ (c.threads.set k _)).sum
    rw [Interleave.sum_map_eq_zero fun m o ho => by rw [Thread.owes, hidle m o ho], hc.1,
      Nat.zero_min, hc.2]

/-- **The account of the job that counts is balanced.** -/
theorem balanced_reachable (h : (runs programs workers).Reachable c)
    (hb : c.threads[k]? = some b) (hcounting : b.counting = some j) : Balanced c j := by
  refine h.invariant_along (I := fun c => ∀ (k : ℕ) (b : Thread) (j : ℕ), c.threads[k]? = some b →
    b.counting = some j → Balanced c j) ?_ ?_ k b j hb hcounting
  · rintro c rfl k b j hb hcounting
    rcases start_threads hb with ⟨todo, -, rfl⟩ | ⟨-, rfl⟩
    · cases hcounting
    · cases hcounting
  · rintro c ⟨i, x⟩ c' hr hI hstep k b j hb hcounting
    obtain ⟨th, s, th', hth, hrun, rfl⟩ := Interleave.turn_ok hstep
    have hmove := act_move hrun
    have hlocks := locks_reachable hr
    obtain ⟨hposted, -⟩ := posted_reachable hr
    -- a thread that counted already: the step settles its account
    have hgoes : ∀ (m : ℕ) (o : Thread), c.threads[m]? = some o → o.counting = some j →
        Balanced ⟨s, c.threads.set i th'⟩ j := by
      intro m o ho hoc
      obtain ⟨hoowns, hojob⟩ := owns_of_counting hoc
      refine (hI m o j ho hoc).step hth (hmove.settles ?_ ?_ ?_ ?_)
      -- no other thread resets the counters of a job that is counted
      · rw [Bool.eq_false_iff]
        intro hreset
        have hthowns := Thread.owns_of_publishes (Thread.publishes_of_resets hreset)
        obtain rfl := owner_unique (hlocks i th hth) (hlocks m o ho) hthowns hoowns
        cases hth.symm.trans ho
        cases th with
        | worker => cases hreset
        | caller n todo p =>
          cases p with
          | setNext | setChunks | setRemaining => cases hoc
          | _ => cases hreset
      -- a drained job is the one that is counted
      · intro n d hd
        have hjob := (drains_counting hr hth hd).1
        rw [(hposted m o ho).job_counting hoc] at hjob
        cases hjob
        exact ⟨rfl, taken_reachable hr hth hd⟩
      · exact fun n t hd => serving_lt hr hth hd
      -- a serial job is not
      · intro n t hs hd
        have hmine := mine_reachable hr
        rcases serving_cases hs with ⟨n', todo, rfl⟩ | hd'
        · have hne : m ≠ i := by
            rintro rfl
            cases hth.symm.trans ho
            cases hoc
          exact Ne.symm (mine_ne (hmine i _ hth) (hmine m o ho) hne rfl hojob)
        · rw [hd] at hd'
          cases hd'
    change (c.threads.set i th')[k]? = some b at hb
    by_cases hk : k = i
    · subst hk
      rw [List.getElem?_set_self (List.getElem?_eq_some_iff.mp hth).1] at hb
      cases hb
      -- the caller that sets `remaining`, or one that counted before
      rcases hmove.counting hcounting with hold | ⟨n, todo, rfl, rfl, rfl⟩
      · exact hgoes k th hth hold
      · exact balanced_setRemaining hr hth
    · rw [List.getElem?_set_ne (Ne.symm hk)] at hb
      exact hgoes k b hb hcounting

/-! ### What has been served when a call returns -/

/-- A caller that is about to return has had its job served. -/
def Complete (s : State) (_ : ℕ) : Thread → Prop
  | .caller _ _ (.unlockCaller j) => Served s j (s.count j)
  | _ => True

/-- A caller that has left `drain` and finds no worker in its job finds it served. -/
theorem served_of_quiet (h : (runs programs workers).Reachable c)
    (hth : c.threads[i]? = some th) (hcounting : th.counting = some j)
    (hdrains : th.drains = none) (hnext : c.shared.chunks ≤ c.shared.next)
    (hactive : c.shared.active = 0) :
    Served c.shared j (c.shared.count j) ∧ c.shared.remaining = 0 := by
  have hbalanced := balanced_reachable h hth hcounting
  -- nobody drains: the tickets are all in the log
  have hidle : ∀ (k : ℕ) (b : Thread), c.threads[k]? = some b → b.drains = none := by
    intro k b hb
    by_cases hk : k = i
    · subst hk
      cases hth.symm.trans hb
      exact hdrains
    · exact drains_eq_none h hth (owns_of_counting hcounting).1 hactive hb hk
  constructor
  · intro t
    have ht := hbalanced.tickets t
    rwa [Interleave.sum_map_eq_zero fun k b hb => by rw [Thread.holds, hidle k b hb],
      Nat.min_eq_right hnext, (counters_reachable h i th hth).chunks hcounting] at ht
  · have hr := hbalanced.remaining
    rw [Interleave.sum_map_eq_zero fun k b hb => by rw [Thread.owes, hidle k b hb],
      Nat.min_eq_right hnext] at hr
    omega

theorem complete_reachable (h : (runs programs workers).Reachable c) :
    Interleave.Each Complete c := by
  refine Interleave.each_invariant ?_ ?_ h
  · rintro c rfl k th hth
    rcases start_threads hth with ⟨todo, -, rfl⟩ | ⟨-, rfl⟩
    · trivial
    · trivial
  · intro c i th x s th' hr hK hth hact
    have hmove := act_move hact
    refine ⟨?_, fun k b hk hb => ?_⟩
    -- the caller that leaves `lockWait` has seen the quiet state
    · have hserved : ∀ n todo m, th = .caller n todo (.lockWait m) → c.shared.active = 0 →
          Served c.shared m (c.shared.count m) := by
        rintro n todo m rfl hactive
        have hc := counters_reachable hr i _ hth
        exact (served_of_quiet hr hth rfl rfl hc.2 hactive).1
      generalize hs : c.shared = s₀ at *
      cases hmove with
      | @call k call todo =>
        split
        · trivial
        · trivial
      | finish _ _ ha => exact hserved _ _ _ rfl ha
      | _ => trivial
    · have hb' := hK k b hb
      cases b with
      | worker => trivial
      | caller n todo p =>
        cases p with
        -- a finished job is not served again
        | unlockCaller j =>
          intro t
          rw [log_other hr hth hmove hb hk rfl rfl t, count_other hr hmove hb rfl]
          exact hb' t
        | _ => trivial

/-- What a thread serves is of a job whose call has not returned. -/
theorem serving_pending (h : (runs programs workers).Reachable c)
    (hth : c.threads[i]? = some th) {t : ℕ} (hs : th.serving = some (j, t)) :
    j ∉ c.shared.returned := by
  rcases serving_cases hs with ⟨n, todo, rfl⟩ | hd
  · exact pending_reachable h i _ hth _ rfl
  · obtain ⟨-, -, -, -, -, -, hret⟩ := job_owner h (drains_counting h hth hd).1
    exact hret

/-- **A call returns when its job has been served**, each index once; and nothing of the
job is served behind that. -/
theorem served_of_returned (h : (runs programs workers).Reachable c) :
    ∀ j ∈ c.shared.returned, Served c.shared j (c.shared.count j) := by
  refine h.invariant_along (I := fun c => ∀ j ∈ c.shared.returned,
    Served c.shared j (c.shared.count j)) ?_ ?_
  · rintro c rfl j hj
    cases hj
  · rintro c ⟨i, x⟩ c' hr hI hstep j hj
    obtain ⟨th, s, th', hth, hrun, rfl⟩ := Interleave.turn_ok hstep
    have hmove := act_move hrun
    -- no step serves an index of a call that has returned
    have hkept : j ∈ c.shared.returned → Served s j (s.count j) := by
      intro hj t
      rw [hmove.count (List.getElem?_eq_getElem (returned_lt hr j hj)), ← hI j hj t]
      rcases hmove.log (fun j t hd => serving_lt hr hth hd) with heq | ⟨m, u, hs, -, heq⟩
      · rw [heq]
      · have hne : j ≠ m := by
          rintro rfl
          exact serving_pending hr hth hs hj
        rw [heq, count_append_ne hne]
    change j ∈ s.returned at hj
    have hnoted := noted_reachable hr i th hth
    have hcomplete := complete_reachable hr i th hth
    generalize c.shared = s₀ at *
    cases hmove with
    | serialEnd hle =>
      -- the serial loop has noted every index below its bound
      rcases List.mem_cons.mp hj with rfl | hj
      · have heq := Nat.le_antisymm hnoted.1 hle
        rw [heq] at hnoted
        exact hnoted.2
      · exact hkept hj
    | unlockCaller =>
      rcases List.mem_cons.mp hj with rfl | hj
      · exact hcomplete
      · exact hkept hj
    | callerDrain hd | callerOut hd | workerDrain hd | workerOut hd =>
      rw [hd.frame.2.2.2.2.2.2] at hj
      exact hkept hj
    | _ => exact hkept hj

/-- **No index is served twice.** -/
theorem log_once (h : (runs programs workers).Reachable c) :
    ∀ e, c.shared.log.count e ≤ 1 := by
  refine h.invariant_along (I := fun c => ∀ e, c.shared.log.count e ≤ 1) ?_ ?_
  · rintro c rfl e
    exact Nat.zero_le _
  · rintro c ⟨i, x⟩ c' hr hI hstep e
    obtain ⟨th, s, th', hth, hrun, rfl⟩ := Interleave.turn_ok hstep
    show s.log.count e ≤ 1
    -- an old note, or the new one
    rcases (act_move hrun).log (fun j t hd => serving_lt hr hth hd) with heq | ⟨j, t, hs, -, heq⟩
    · rw [heq]
      exact hI e
    · -- the index that is served has not been noted
      have hzero : c.shared.log.count (j, t) = 0 := by
        rcases serving_cases hs with ⟨n, todo, rfl⟩ | hd
        · have hnoted := noted_reachable hr i _ hth
          rw [hnoted.2, if_neg (Nat.lt_irrefl _)]
        · obtain ⟨-, n, o, ho, hcounting⟩ := drains_counting hr hth hd
          have htickets := (balanced_reachable hr ho hcounting).tickets t
          have hone : th.holds c.shared.chunks t = 1 := by
            rw [Thread.holds, hd]
            exact if_pos rfl
          have hle := Interleave.le_sum_of_getElem? (Thread.holds c.shared.chunks t) hth
          split at htickets <;> omega
      obtain ⟨m, u⟩ := e
      rw [heq]
      -- the new index goes from none to one note, every other one keeps its notes
      by_cases hm : m = j
      · subst hm
        rw [count_append_self]
        have hle := hI (m, u)
        split
        · next htu =>
          subst htu
          omega
        · exact hle
      · rw [count_append_ne hm]
        exact hI (m, u)

end Pool
end RowStore
end Dsv41Overlay
