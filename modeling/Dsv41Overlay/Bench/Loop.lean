import Dsv41Overlay.Bench.Rollout
import Dsv41Overlay.Lib.System

/-!
# Invocations of the benchmark

One invocation reads the rows of the output directory, plans what is left, and runs the
main loop: reap the rollouts that ended, check the budgets, look at the engine's metrics,
start the next job. Every attempt is appended to `raw.jsonl` as one row, flushed and synced
before the loop goes on.

The model is the main thread, one step to a statement that another one can be told apart
from: an interrupt may come between any two of them, and a kill may leave any number of the
bytes that were not yet flushed. What the loop learns from outside (the progress of the
rollouts, the clocks and the gauges) is the choice of the step.
-/

namespace Dsv41Overlay.Bench

/-! ### States -/

/-- The options of an invocation that the loop reads. -/
structure Args where
  budgetTokens : ℕ
  maxErrors : ℕ
  concurrency : ℕ
  yieldOn : Bool

/-- Where the main thread is. The lists are what a `for` loop has still to visit. -/
inductive Point
  /-- No invocation runs. -/
  | idle
  | head
  | reap (rest : List Job)
  /-- After `del inflight[job]`. -/
  | removed (ro : Rollout) (rest : List Job)
  /-- After `fh.write`. -/
  | buffered (ro : Rollout) (rest : List Job)
  /-- After `fh.flush` and `os.fsync`. -/
  | flushed (ro : Rollout) (rest : List Job)
  | budgets
  | aborting (reason : Abort) (rest : List Job)
  | metrics
  | gate
  /-- After `pending.popleft`. -/
  | popped (job : Job)
  /-- After `inflight[job] = ro`. -/
  | registered (job : Job)
  /-- The second loop of the interrupt handler, before and after `fh.write`. -/
  | recording (rest : List Job)
  | recorded (rest : List Job)

/-- The points at which an interrupt enters the handler. -/
def Point.interruptible : Point → Prop
  | .idle | .aborting .interrupted _ | .recording _ | .recorded _ => False
  | _ => True

/-- The file, the rows handed to it and not yet flushed, and the locals of the loop. The
rollouts in flight are in the order of their start. -/
structure State where
  file : ByteArray
  unflushed : List Row
  point : Point
  args : Args
  pending : List Job
  inflight : List Rollout
  spent : ℕ
  errorsInRow : ℕ
  finished : ℕ
  stop : Bool

/-- The bytes of the lines of some rows. -/
def encodeRows (rows : List Row) : ByteArray :=
  (String.ofList (Json.lines (rows.map Row.fields))).toByteArray

/-- The rows go to the file as JSON lines. -/
theorem encodeRows_eq (rows : List Row) :
    encodeRows rows = (Json.lines (rows.map Row.fields)).utf8Encode :=
  String.toByteArray_ofList

namespace State

def jobs (s : State) : List Job := s.inflight.map Rollout.job

def flush (s : State) : State :=
  { s with file := s.file ++ encodeRows s.unflushed, unflushed := [] }

/-- The end of the process: nothing is left but the file. -/
def exit (s : State) : State :=
  { s with unflushed := [], point := .idle, pending := [], inflight := [] }

/-- What `run_loop` starts with. -/
def enter (s : State) (args : Args) (todo : List Job) : State :=
  { s with
    unflushed := [], point := .head, args := args, pending := todo, inflight := [], spent := 0,
    errorsInRow := 0, finished := 0, stop := false }

/-- The bookkeeping after a row is written. -/
def account (s : State) (ro : Rollout) (rest : List Job) : State :=
  let s := { s with spent := s.spent + ro.row.completionTokens, point := .reap rest }
  -- a yielded job is redone first, with the same seed
  match ro.status with
  | .done => { s with finished := s.finished + 1, errorsInRow := 0 }
  | .yielded => { s with pending := ro.job :: s.pending }
  | .error =>
    { s with
      errorsInRow := s.errorsInRow + 1
      stop := s.stop || decide (s.args.maxErrors ≤ s.errorsInRow + 1) }
  | .budget | .interrupted => s

/-- `over_budget`. -/
def overBudget (s : State) : Bool :=
  decide (s.args.budgetTokens < s.spent + (s.inflight.map Rollout.tokens).sum)

/-- The two token budgets and the time budget; the first that is reached stops the loop. -/
def checkBudgets (s : State) (timeOver : Bool) : State :=
  if s.stop then { s with point := .metrics }
  else if s.args.budgetTokens ≤ s.spent then { s with stop := true, point := .metrics }
  else if s.overBudget || timeOver then
    { s with stop := true, point := .aborting .budget s.jobs }
  else { s with point := .metrics }

/-- Yield to foreign use that lasts. -/
def checkMetrics (s : State) (busy sustained : Bool) : State :=
  if busy && !s.inflight.isEmpty && s.args.yieldOn && sustained then
    { s with point := .aborting .yielded s.jobs }
  else { s with point := .gate }

/-- Change the rollout of one job. -/
def update (s : State) (job : Job) (f : Rollout → Rollout) : State :=
  { s with inflight := s.inflight.map fun ro => if ro.job = job then f ro else ro }

/-- Where a loop over `abort` goes on. -/
def aborted (s : State) : Abort → State
  | .budget => { s with point := .metrics }
  | .yielded => { s with point := .gate }
  | .interrupted => { s with point := .recording s.jobs }

end State

/-- What a rollout's thread may do: it keeps its job and the reason it was aborted for, and
may itself find the token budget exceeded. -/
structure Rollout.Progress (ro ro' : Rollout) : Prop where
  job : ro'.job = ro.job
  running : ro.started = true ∧ ro.alive = true
  started : ro'.started = ro.started
  abortReason : ro'.abortReason = ro.abortReason ∨
    ro.abortReason = none ∧ ro'.abortReason = some .budget

/-! ### Steps -/

inductive Label
  | invoke (args : Args) (plan : List Job)
  | tick
  /-- A row is handed to the file. -/
  | write (row : Row)
  /-- What the file was handed goes to disk. -/
  | flush
  /-- `ro.start`. -/
  | run (job : Job)
  | interrupt
  /-- The process ends with `kept` bytes of what was not flushed on disk. -/
  | kill (kept : ℕ)

inductive Step : State → Label → State → Prop
  -- `cmd_run` up to the call of `run_loop`
  | invoke {s : State} {args : Args} {plan todo : List Job} (hpoint : s.point = .idle)
      (hplan : (plan.map Job.key).Nodup) (htodo : todoOf s.file plan = some todo)
      (hne : todo ≠ []) : Step s (.invoke args plan) (s.enter args todo)
  /-- Reading the rows raises, nothing is left to do, or the preflight fails. -/
  | refuse {s : State} {args : Args} {plan : List Job} (hpoint : s.point = .idle) :
      Step s (.invoke args plan) s
  -- `while (pending and not stop) or inflight`
  | loop {s : State} (hpoint : s.point = .head)
      (hmore : s.pending ≠ [] ∧ s.stop = false ∨ s.inflight ≠ []) :
      Step s .tick { s with point := .reap s.jobs }
  -- the loop is over, and the file is closed
  | leave {s : State} (hpoint : s.point = .head)
      (hdone : ¬(s.pending ≠ [] ∧ s.stop = false ∨ s.inflight ≠ [])) :
      Step s .flush s.flush.exit
  -- `if ro.is_alive(): continue`
  | keep {s : State} {ro : Rollout} {rest : List Job} (hpoint : s.point = .reap (ro.job :: rest))
      (hro : ro ∈ s.inflight) (halive : ro.alive = true) :
      Step s .tick { s with point := .reap rest }
  -- `del inflight[job]`
  | remove {s : State} {ro : Rollout} {rest : List Job} {before after : List Rollout}
      (hpoint : s.point = .reap (ro.job :: rest)) (hro : s.inflight = before ++ ro :: after)
      (hdead : ro.alive = false) :
      Step s .tick { s with inflight := before ++ after, point := .removed ro rest }
  -- `write`, in the order of its calls
  | write {s : State} {ro : Rollout} {rest : List Job} (hpoint : s.point = .removed ro rest) :
      Step s (.write ro.row)
        { s with unflushed := s.unflushed ++ [ro.row], point := .buffered ro rest }
  | flush {s : State} {ro : Rollout} {rest : List Job} (hpoint : s.point = .buffered ro rest) :
      Step s .flush { s.flush with point := .flushed ro rest }
  | account {s : State} {ro : Rollout} {rest : List Job} (hpoint : s.point = .flushed ro rest) :
      Step s .tick (s.account ro rest)
  -- no rollout is left to look at
  | reaped {s : State} (hpoint : s.point = .reap []) : Step s .tick { s with point := .budgets }
  | budgets {s : State} (timeOver : Bool) (hpoint : s.point = .budgets) :
      Step s .tick (s.checkBudgets timeOver)
  -- `for ro in inflight.values(): ro.abort(...)`
  | abort {s : State} {reason : Abort} {job : Job} {rest : List Job}
      (hpoint : s.point = .aborting reason (job :: rest)) :
      Step s .tick
        { s.update job (fun ro => ro.abort reason) with point := .aborting reason rest }
  | aborted {s : State} {reason : Abort} (hpoint : s.point = .aborting reason []) :
      Step s .tick (s.aborted reason)
  -- `reason` is not empty, and has been so for `yield_after_s`
  | metrics {s : State} (busy sustained : Bool) (hpoint : s.point = .metrics) :
      Step s .tick (s.checkMetrics busy sustained)
  /-- Nothing may start now. -/
  | closed {s : State} (hpoint : s.point = .gate) : Step s .tick { s with point := .head }
  -- the engine has been quiet for long enough
  | pop {s : State} {job : Job} {rest : List Job} (hpoint : s.point = .gate)
      (hstop : s.stop = false) (hpending : s.pending = job :: rest)
      (hroom : s.inflight.length < s.args.concurrency) :
      Step s .tick { s with pending := rest, point := .popped job }
  | register {s : State} {job : Job} (promptTokens : ℕ) (startedAt : List Char)
      (hpoint : s.point = .popped job) :
      Step s .tick
        { s with
          inflight := s.inflight ++ [Rollout.fresh job promptTokens startedAt]
          point := .registered job }
  | run {s : State} {ro : Rollout} {before after : List Rollout}
      (hpoint : s.point = .registered ro.job) (hro : s.inflight = before ++ ro :: after) :
      Step s (.run ro.job)
        { s with
          inflight := before ++ { ro with started := true, alive := true } :: after
          point := .head }
  -- a rollout's own thread
  | progress {s : State} {ro ro' : Rollout} {before after : List Rollout}
      (hro : s.inflight = before ++ ro :: after) (h : ro.Progress ro') :
      Step s .tick { s with inflight := before ++ ro' :: after }
  | interrupt {s : State} (hpoint : s.point.interruptible) :
      Step s .interrupt { s with point := .aborting .interrupted s.jobs }
  /-- The handler waits for a rollout, for a while, and records it. -/
  | record {s : State} {ro : Rollout} {rest : List Job}
      (hpoint : s.point = .recording (ro.job :: rest)) (hro : ro ∈ s.inflight)
      (hstarted : ro.started = true) :
      Step s (.write ro.row)
        { s with unflushed := s.unflushed ++ [ro.row], point := .recorded rest }
  | recordFlush {s : State} {rest : List Job} (hpoint : s.point = .recorded rest) :
      Step s .flush { s.flush with point := .recording rest }
  | recordEnd {s : State} (hpoint : s.point = .recording []) : Step s .flush s.flush.exit
  /-- Any other exception, such as a second interrupt or the wait for a thread that never
  started: the file is closed on the way out. -/
  | raise {s : State} (hpoint : s.point ≠ .idle) : Step s .flush s.flush.exit
  | kill {s : State} (kept : ℕ) (hpoint : s.point ≠ .idle) :
      Step s (.kill kept)
        { s with file := s.file ++ (encodeRows s.unflushed).extract 0 kept }.exit

/-- An output directory before its first invocation. -/
def emptyDir : State :=
  ⟨ByteArray.empty, [], .idle, ⟨0, 0, 0, false⟩, [], [], 0, 0, 0, false⟩

/-- The invocations on one output directory. -/
def bench : System State Label where
  init := fun s => s = emptyDir
  step := Step

/-- The runs that go on from a state. -/
def benchFrom (s : State) : System State Label where
  init := fun s' => s' = s
  step := Step

end Dsv41Overlay.Bench
