import Dsv41Overlay.Lib.JsonLines
import Mathlib.Data.List.Nodup

/-!
# Rollouts and their rows

A benchmark plan is a list of jobs, one for each task, arm and sample. A rollout is one
streamed completion for a job; when it ends, is aborted or fails, it becomes a row of
`raw.jsonl`. A later invocation reads the rows back and runs the jobs whose key has no row
with status `done`.

`readJsonl_rows` and `todoOf_rows` say what the reader finds in a file of whole rows: every
row, and the planned jobs without a finished one.
-/

namespace Dsv41Overlay.Bench

open Json (Flat Scalar Value)

/-! ### Jobs -/

/-- An arm as given on the command line. -/
inductive ArmLabel
  | budget (tokens : ℕ)
  | low
  | high
  | max
deriving Repr, DecidableEq

/-- `effort_budget`. -/
def effortBudget : ArmLabel → ℕ
  | .budget tokens => tokens
  | .low => 50
  | .high => 75
  | .max => 100

structure Job where
  taskId : List Char
  effort : ℕ
  label : ArmLabel
  sampleIdx : ℕ
  seed : ℕ
deriving Repr, DecidableEq

/-- What identifies a job across invocations. -/
abbrev Key := List Char × ℕ × ℕ

def Job.key (j : Job) : Key := (j.taskId, j.effort, j.sampleIdx)

/-- `plan_jobs`: sample-major, the arms of a task in the order the seeded shuffle gives. -/
def planJobs (shuffle : ℕ → List Char → List ArmLabel → List ArmLabel)
    (sampleSeed : List Char → ℕ → ℕ) (taskIds : List (List Char)) (efforts : List ArmLabel)
    (nSample : ℕ) : List Job :=
  (List.range nSample).flatMap fun sample => taskIds.flatMap fun task =>
    (shuffle sample task efforts).map fun e =>
      ⟨task, effortBudget e, e, sample, sampleSeed task sample⟩

/-- **A plan has each key once**: the tasks differ, and the efforts of the arms do. -/
theorem nodup_planJobs {shuffle : ℕ → List Char → List ArmLabel → List ArmLabel}
    {sampleSeed : List Char → ℕ → ℕ} {taskIds : List (List Char)} {efforts : List ArmLabel}
    {nSample : ℕ} (hshuffle : ∀ sample task, (shuffle sample task efforts).Perm efforts)
    (htasks : taskIds.Nodup) (hefforts : (efforts.map effortBudget).Nodup) :
    ((planJobs shuffle sampleSeed taskIds efforts nSample).map Job.key).Nodup := by
  unfold planJobs
  rw [List.map_flatMap, List.nodup_flatMap]
  constructor
  · intro sample _
    rw [List.map_flatMap, List.nodup_flatMap]
    constructor
    · intro task _
      -- the arms of a task, in any order
      have hbudgets : ((shuffle sample task efforts).map effortBudget).Nodup :=
        ((hshuffle sample task).map effortBudget).nodup_iff.mpr hefforts
      rw [List.map_map]
      refine List.Nodup.of_map (fun k : Key => k.2.1) ?_
      rw [List.map_map]
      exact hbudgets
    · refine htasks.imp ?_
      intro task task' hne k hk hk'
      obtain ⟨j, hj, rfl⟩ := List.mem_map.mp hk
      obtain ⟨j', hj', hkey⟩ := List.mem_map.mp hk'
      obtain ⟨e, -, rfl⟩ := List.mem_map.mp hj
      obtain ⟨e', -, rfl⟩ := List.mem_map.mp hj'
      exact hne (congrArg Prod.fst hkey).symm
  · refine List.nodup_range.imp ?_
    intro sample sample' hne k hk hk'
    obtain ⟨j, hj, rfl⟩ := List.mem_map.mp hk
    obtain ⟨j', hj', hkey⟩ := List.mem_map.mp hk'
    obtain ⟨task, -, hj⟩ := List.mem_flatMap.mp hj
    obtain ⟨task', -, hj'⟩ := List.mem_flatMap.mp hj'
    obtain ⟨e, -, rfl⟩ := List.mem_map.mp hj
    obtain ⟨e', -, rfl⟩ := List.mem_map.mp hj'
    exact hne (congrArg (fun k : Key => k.2.2) hkey).symm

/-! ### Rows -/

inductive Status
  | done
  | yielded
  | budget
  | interrupted
  | error
deriving Repr, DecidableEq

def Status.text : Status → List Char
  | done => "done".toList
  | yielded => "yielded".toList
  | budget => "budget".toList
  | interrupted => "interrupted".toList
  | error => "error".toList

/-- The reasons a rollout is aborted for. -/
inductive Abort
  | yielded
  | budget
  | interrupted
deriving Repr, DecidableEq

def Abort.status : Abort → Status
  | yielded => .yielded
  | budget => .budget
  | interrupted => .interrupted

/-- One streamed chat completion. Times are in hundredths of a second, as the row rounds
them; the empty `error` and `finish_reason` are those of a rollout without one. -/
structure Rollout where
  job : Job
  promptTokens : ℕ
  tokens : ℕ
  reasoning : List Char
  content : List Char
  finishReason : Option (List Char)
  usagePromptTokens : ℕ
  reasoningTokens : Option ℤ
  error : List Char
  abortReason : Option Abort
  startedAt : List Char
  ttft : Option ℕ
  elapsed : ℕ
  started : Bool
  alive : Bool

structure Row where
  taskId : List Char
  effort : ℕ
  label : ArmLabel
  sampleIdx : ℕ
  seed : ℕ
  status : Status
  finishReason : Option (List Char)
  promptTokens : ℕ
  completionTokens : ℕ
  reasoningTokens : Option ℤ
  elapsed : ℕ
  ttft : Option ℕ
  startedAt : List Char
  reasoning : List Char
  content : List Char
  error : List Char

def Row.key (r : Row) : Key := (r.taskId, r.effort, r.sampleIdx)

namespace Rollout

/-- `abort`: the first reason stays. -/
def abort (ro : Rollout) (reason : Abort) : Rollout :=
  { ro with abortReason := ro.abortReason.or (some reason) }

/-- A rollout before its thread runs. -/
def fresh (job : Job) (promptTokens : ℕ) (startedAt : List Char) : Rollout :=
  ⟨job, promptTokens, 0, [], [], none, 0, none, [], none, startedAt, none, 0, false, false⟩

/-- The status of `row`. -/
def status (ro : Rollout) : Status :=
  match ro.abortReason with
  | some reason => reason.status
  | none => if ro.finishReason.isSome ∧ ro.error = [] then .done else .error

/-- `row`. -/
def row (ro : Rollout) : Row where
  taskId := ro.job.taskId
  effort := ro.job.effort
  label := ro.job.label
  sampleIdx := ro.job.sampleIdx
  seed := ro.job.seed
  status := ro.status
  finishReason := ro.finishReason
  promptTokens := if ro.usagePromptTokens = 0 then ro.promptTokens else ro.usagePromptTokens
  completionTokens := ro.tokens
  reasoningTokens := ro.reasoningTokens
  elapsed := ro.elapsed
  ttft := ro.ttft
  startedAt := ro.startedAt
  reasoning := ro.reasoning
  content := ro.content
  error := if ro.error = [] then "stream ended without a finish_reason".toList else ro.error

@[simp] theorem row_key (ro : Rollout) : ro.row.key = ro.job.key := rfl

@[simp] theorem row_status (ro : Rollout) : ro.row.status = ro.status := rfl

@[simp] theorem abort_job (ro : Rollout) (reason : Abort) : (ro.abort reason).job = ro.job := rfl

/-- An aborted rollout is never recorded as finished. -/
theorem status_ne_done {ro : Rollout} (h : ro.abortReason ≠ none) : ro.status ≠ .done := by
  unfold status
  cases hr : ro.abortReason with
  | none => exact absurd hr h
  | some reason =>
    cases reason with
    | yielded => exact Status.noConfusion
    | budget => exact Status.noConfusion
    | interrupted => exact Status.noConfusion

/-- An aborted rollout has a reason. -/
theorem abort_ne_none (ro : Rollout) (reason : Abort) : (ro.abort reason).abortReason ≠ none := by
  unfold abort
  cases h : ro.abortReason with
  | none => exact Option.some_ne_none reason
  | some r => exact Option.some_ne_none r

end Rollout

/-! ### Rows as JSON -/

/-- `repr` of a number of hundredths. -/
def hundredths (n : ℕ) : List Char :=
  pyStr (n / 100) ++ '.' ::
    if n % 10 = 0 then [digitChar (n / 10 % 10)]
    else [digitChar (n / 10 % 10), digitChar (n % 10)]

def labelScalar : ArmLabel → Scalar
  | .budget tokens => .int tokens
  | .low => .str "low".toList
  | .high => .str "high".toList
  | .max => .str "max".toList

/-- A value or `null`. -/
def orNull {α : Type*} (f : α → Scalar) : Option α → Scalar
  | none => .null
  | some a => f a

/-- The dictionary `row` returns. -/
def Row.fields (r : Row) : Flat :=
  [("task_id".toList, .str r.taskId), ("effort".toList, .int r.effort),
    ("effort_label".toList, labelScalar r.label), ("sample_idx".toList, .int r.sampleIdx),
    ("seed".toList, .int r.seed), ("status".toList, .str r.status.text),
    ("finish_reason".toList, orNull .str r.finishReason),
    ("prompt_tokens".toList, .int r.promptTokens),
    ("completion_tokens".toList, .int r.completionTokens),
    ("reasoning_tokens".toList, orNull .int r.reasoningTokens),
    ("elapsed_s".toList, .float (hundredths r.elapsed)),
    ("ttft_s".toList, orNull (fun t => .float (hundredths t)) r.ttft),
    ("started_at".toList, .str r.startedAt), ("reasoning".toList, .str r.reasoning),
    ("content".toList, .str r.content)] ++
  if r.status = .error then [("error".toList, .str r.error)] else []

/-- The strings of the row that are not fixed by the program. -/
structure Row.Unbroken (r : Row) : Prop where
  taskId : Json.Unbroken r.taskId
  finishReason : ∀ s, r.finishReason = some s → Json.Unbroken s
  startedAt : Json.Unbroken r.startedAt
  reasoning : Json.Unbroken r.reasoning
  content : Json.Unbroken r.content
  error : r.status = .error → Json.Unbroken r.error

/-! ### Reading rows back -/

/-- `r[name]` of a value read from a row; the last of equal names counts. -/
def field? (name : List Char) : Value → Option Value
  | .obj fields => (fields.reverse.find? fun f => f.1 = name).map Prod.snd
  | _ => none

/-- A hashable field. -/
def scalarField? (name : List Char) (r : Value) : Option Scalar :=
  match field? name r with
  | some (.scalar v) => some v
  | _ => none

/-- The key of a finished row, `some none` for a row with another status. What is no row
raises, `none`. -/
def doneKey (r : Value) : Option (Option (Scalar × Scalar × Scalar)) :=
  match r with
  | .obj _ =>
    if scalarField? "status".toList r = some (.str "done".toList) then
      match scalarField? "task_id".toList r, scalarField? "effort".toList r,
        scalarField? "sample_idx".toList r with
      | some task, some effort, some sample => some (some (task, effort, sample))
      | _, _, _ => none
    else some none
  | _ => none

/-- `done_keys`. -/
def doneKeys (raw : List Value) : Option (List (Scalar × Scalar × Scalar)) :=
  (raw.mapM doneKey).map fun keys => keys.filterMap id

/-- A job's key as the values of a row. -/
def Job.scalarKey (j : Job) : Scalar × Scalar × Scalar :=
  (.str j.taskId, .int j.effort, .int j.sampleIdx)

/-- `todo` of `cmd_run`; `none` when reading the rows raises. -/
def todoOf (file : ByteArray) (plan : List Job) : Option (List Job) :=
  match Json.readJsonl file with
  | none => none
  | some raw =>
    match doneKeys raw with
    | none => none
    | some keys => some (plan.filter fun j => decide (j.scalarKey ∉ keys))

/-- The keys of the finished rows, in order. -/
def finishedKeys (rows : List Row) : List Key :=
  (rows.filter fun r => decide (r.status = .done)).map Row.key

/-- The finished keys of two files are those of both. -/
theorem finishedKeys_append (rows more : List Row) :
    finishedKeys (rows ++ more) = finishedKeys rows ++ finishedKeys more := by
  simp [finishedKeys]

/-- The file holds exactly these rows. -/
def OnDisk (file : ByteArray) (rows : List Row) : Prop := Json.Whole file (rows.map Row.fields)

/-! ### Rows are plain -/

section Reader

variable {r : Row}

/-- A number of hundredths is written as a float literal. -/
theorem floatLit_hundredths (n : ℕ) : Json.FloatLit (hundredths n) := by
  have hdigit : ∀ d : ℕ, isAsciiDigit (digitChar (d % 10)) = true := fun d =>
    isAsciiDigit_digitChar (Nat.mod_lt d (by omega))
  by_cases hn : n % 10 = 0
  · refine ⟨n / 100, [digitChar (n / 10 % 10)], List.cons_ne_nil _ _, ?_, ?_⟩
    · rintro c hc
      obtain rfl := List.mem_singleton.mp hc
      exact hdigit _
    · rw [hundredths, if_pos hn]
  · refine ⟨n / 100, [digitChar (n / 10 % 10), digitChar (n % 10)], List.cons_ne_nil _ _, ?_, ?_⟩
    · rintro c hc
      rcases List.mem_pair.mp hc with rfl | rfl
      · exact hdigit _
      · exact hdigit _
    · rw [hundredths, if_neg hn]

/-- An optional value is valid when the value is. -/
theorem valid_orNull {α : Type*} {f : α → Scalar} {o : Option α} (h : ∀ a, (f a).Valid) :
    (orNull f o).Valid := by
  cases o with
  | none => trivial
  | some a => exact h a

/-- A label is valid JSON. -/
theorem valid_labelScalar (l : ArmLabel) : (labelScalar l).Valid := by
  cases l <;> trivial

/-- A property of all fields of a row, field by field. -/
theorem Row.forall_fields {P : List Char × Scalar → Prop} :
    (∀ f ∈ r.fields, P f) ↔
      (P ("task_id".toList, .str r.taskId) ∧ P ("effort".toList, .int r.effort) ∧
        P ("effort_label".toList, labelScalar r.label) ∧
        P ("sample_idx".toList, .int r.sampleIdx) ∧ P ("seed".toList, .int r.seed) ∧
        P ("status".toList, .str r.status.text) ∧
        P ("finish_reason".toList, orNull .str r.finishReason) ∧
        P ("prompt_tokens".toList, .int r.promptTokens) ∧
        P ("completion_tokens".toList, .int r.completionTokens) ∧
        P ("reasoning_tokens".toList, orNull .int r.reasoningTokens) ∧
        P ("elapsed_s".toList, .float (hundredths r.elapsed)) ∧
        P ("ttft_s".toList, orNull (fun t => .float (hundredths t)) r.ttft) ∧
        P ("started_at".toList, .str r.startedAt) ∧ P ("reasoning".toList, .str r.reasoning) ∧
        P ("content".toList, .str r.content)) ∧
      (r.status = .error → P ("error".toList, .str r.error)) := by
  unfold Row.fields
  rw [List.forall_mem_append]
  refine and_congr ?_ ?_
  · simp only [List.forall_mem_cons, List.not_mem_nil, false_imp_iff, implies_true, and_true]
  · split
    · next h => simp [h]
    · next h => simp [h]

/-- No status has a line break in it. -/
theorem unbroken_status (st : Status) : Json.Unbroken st.text := by
  cases st <;> decide

/-- A string of an optional field is one of its values. -/
theorem exists_of_orNull_eq_str {α : Type*} {f : α → Scalar} {o : Option α} {s : List Char}
    (h : orNull f o = .str s) : ∃ a, o = some a ∧ f a = .str s := by
  cases o with
  | none => exact Scalar.noConfusion h
  | some a => exact ⟨a, rfl, h⟩

/-- The words for an arm are fixed. -/
theorem unbroken_labelScalar {l : ArmLabel} {s : List Char} (h : labelScalar l = .str s) :
    Json.Unbroken s := by
  cases l with
  | budget tokens => exact Scalar.noConfusion h
  | low =>
    obtain rfl := Scalar.str.inj h
    decide
  | high =>
    obtain rfl := Scalar.str.inj h
    decide
  | max =>
    obtain rfl := Scalar.str.inj h
    decide

/-- **Rows are plain**: their numbers are literals, and their strings are unbroken when
those of the rollout are. -/
theorem Row.Unbroken.plain (h : r.Unbroken) : Flat.Plain r.fields := by
  have hstr : ∀ {t : List Char}, Json.Unbroken t → ∀ s, Scalar.str t = .str s →
      Json.Unbroken s := by
    rintro t ht s hs
    injection hs with hs
    exact hs ▸ ht
  have hint : ∀ (z : ℤ) (s : List Char), Scalar.int z = .str s → Json.Unbroken s :=
    fun z s hs => Scalar.noConfusion hs
  have hfloat : ∀ t s : List Char, Scalar.float t = .str s → Json.Unbroken s :=
    fun t s hs => Scalar.noConfusion hs
  -- the values, the names and the strings, field by field
  refine ⟨?_, ?_, ?_⟩
  · rw [Row.forall_fields]
    exact ⟨⟨trivial, trivial, valid_labelScalar _, trivial, trivial, trivial,
      valid_orNull fun _ => trivial, trivial, trivial, valid_orNull fun _ => trivial,
      floatLit_hundredths _, valid_orNull fun t => floatLit_hundredths t, trivial, trivial,
      trivial⟩, fun _ => trivial⟩
  · rw [Row.forall_fields]
    dsimp only
    exact ⟨by decide, fun _ => by decide⟩
  · rw [Row.forall_fields]
    refine ⟨⟨hstr h.taskId, hint _, fun s => unbroken_labelScalar, hint _, hint _,
      hstr (unbroken_status _), ?_, hint _, hint _, ?_, hfloat _, ?_, hstr h.startedAt,
      hstr h.reasoning, hstr h.content⟩, fun herror => hstr (h.error herror)⟩
    · intro s hs
      obtain ⟨t, ht, heq⟩ := exists_of_orNull_eq_str hs
      exact hstr (h.finishReason t ht) s heq
    · intro s hs
      obtain ⟨z, -, heq⟩ := exists_of_orNull_eq_str hs
      exact hint z s heq
    · intro s hs
      obtain ⟨t, -, heq⟩ := exists_of_orNull_eq_str hs
      exact hfloat _ s heq

/-! ### What the reader finds -/

/-- The fields the reader looks at. -/
theorem scalarField?_row (r : Row) :
    scalarField? "status".toList (Flat.value r.fields) = some (.str r.status.text) ∧
    scalarField? "task_id".toList (Flat.value r.fields) = some (.str r.taskId) ∧
    scalarField? "effort".toList (Flat.value r.fields) = some (.int r.effort) ∧
    scalarField? "sample_idx".toList (Flat.value r.fields) = some (.int r.sampleIdx) := by
  unfold Row.fields
  by_cases h : r.status = .error
  · rw [if_pos h]
    exact ⟨rfl, rfl, rfl, rfl⟩
  · rw [if_neg h]
    exact ⟨rfl, rfl, rfl, rfl⟩

/-- Only the status done is written as done. -/
theorem Status.text_eq_done {st : Status} : st.text = "done".toList ↔ st = .done := by
  cases st <;> decide

/-- A key as the values of a row. -/
def keyScalars (k : Key) : Scalar × Scalar × Scalar := (.str k.1, .int k.2.1, .int k.2.2)

/-- The scalars of a key determine it. -/
theorem keyScalars_injective {k k' : Key} (h : keyScalars k = keyScalars k') : k = k' := by
  obtain ⟨task, effort, sample⟩ := k
  obtain ⟨task', effort', sample'⟩ := k'
  simpa [keyScalars] using h

/-- A row is read back as its key, if it is done. -/
theorem doneKey_row (r : Row) :
    doneKey (Flat.value r.fields)
      = some (if r.status = .done then some (keyScalars r.key) else none) := by
  obtain ⟨hstatus, htask, heffort, hsample⟩ := scalarField?_row r
  have hdone : scalarField? "status".toList (Flat.value r.fields) = some (.str "done".toList) ↔
      r.status = .done := by
    rw [hstatus, Option.some.injEq, Scalar.str.injEq, Status.text_eq_done]
  unfold doneKey
  by_cases h : r.status = .done
  · rw [if_pos h, if_pos (hdone.mpr h), htask, heffort, hsample]
    rfl
  · rw [if_neg h, if_neg (fun h' => h (hdone.mp h'))]
    rfl

/-- **The finished keys** of whole rows. -/
theorem doneKeys_rows (rows : List Row) :
    doneKeys ((rows.map Row.fields).map Flat.value)
      = some ((finishedKeys rows).map keyScalars) := by
  have hmap : ((rows.map Row.fields).map Flat.value).mapM doneKey
      = some (rows.map fun r => if r.status = .done then some (keyScalars r.key) else none) := by
    induction rows with
    | nil => rfl
    | cons r rows ih =>
      rw [List.map_cons, List.map_cons, List.mapM_cons, doneKey_row, ih]
      rfl
  rw [doneKeys, hmap]
  simp only [Option.map_some, Option.some.injEq]
  clear hmap
  induction rows with
  | nil => rfl
  | cons r rows ih =>
    rw [List.map_cons, finishedKeys]
    by_cases h : r.status = .done
    · rw [if_pos h, List.filterMap_cons_some (f := id) rfl, ih, List.filter_cons,
        if_pos (decide_eq_true h)]
      rfl
    · rw [if_neg h, List.filterMap_cons_none (f := id) rfl, ih, List.filter_cons,
        if_neg (by simpa using h)]
      rfl

/-- **Every row is read back.** -/
theorem readJsonl_rows {file : ByteArray} {rows : List Row} (hfile : OnDisk file rows)
    (h : ∀ r ∈ rows, r.Unbroken) :
    Json.readJsonl file = some ((rows.map Row.fields).map Flat.value) := by
  apply Json.readJsonl_of_whole hfile
  intro row hrow
  obtain ⟨r, hr, rfl⟩ := List.mem_map.mp hrow
  exact (h r hr).plain

/-- **What is left to do**: the planned jobs without a finished row. -/
theorem todoOf_rows {file : ByteArray} {rows : List Row} (hfile : OnDisk file rows)
    (h : ∀ r ∈ rows, r.Unbroken) (plan : List Job) :
    todoOf file plan = some (plan.filter fun j => decide (j.key ∉ finishedKeys rows)) := by
  have hmem : ∀ j : Job, j.scalarKey ∈ (finishedKeys rows).map keyScalars ↔
      j.key ∈ finishedKeys rows := by
    intro j
    constructor
    · intro hj
      obtain ⟨k, hk, heq⟩ := List.mem_map.mp hj
      have hkey : k = j.key := keyScalars_injective heq
      exact hkey ▸ hk
    · intro hj
      exact List.mem_map.mpr ⟨j.key, hj, rfl⟩
  rw [todoOf, readJsonl_rows hfile h]
  dsimp only
  rw [doneKeys_rows]
  simp only [hmem]

end Reader

end Dsv41Overlay.Bench
