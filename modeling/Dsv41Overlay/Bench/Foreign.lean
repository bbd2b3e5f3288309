import Mathlib.Algebra.Order.Group.Int
import Dsv41Overlay.Lib.System

/-!
# Foreign traffic

The benchmark shares its engine with others. `ForeignDetector` compares the growth of the
engine's prompt-token counter between two polls with the prompts the benchmark has announced
and not yet seen counted, its *credit*. What the detector is measured against is the watch:
the engine counts tokens of announced prompts and of others', in any order and any portions,
and a restart sets its counter back.

The credit stays within the announced prompts that the engine has not counted, as long as
the counter does not fall behind a poll (`credit_bounded`): a fall is a negative growth, which
the update adds to the credit.
-/

namespace Dsv41Overlay.Bench

/-- What the detector reads of the engine's metrics. -/
structure Metrics where
  running : ℕ
  waiting : ℕ
  promptTokens : ℕ
deriving Repr, DecidableEq

structure ForeignDetector where
  prev : Option ℕ
  credit : ℤ
deriving Repr, DecidableEq

namespace ForeignDetector

/-- `__init__`. -/
def new : ForeignDetector where
  prev := none
  credit := 0

/-- `expect_prompt`. -/
def expectPrompt (d : ForeignDetector) (tokens : ℕ) : ForeignDetector :=
  { d with credit := d.credit + tokens }

/-- The reason that the gauges give. -/
def engineReason (m : Metrics) (ours : ℕ) : String :=
  "engine running=" ++ toString m.running ++ " waiting=" ++ toString m.waiting ++ ", ours="
    ++ toString ours

/-- The reason that the counter gives. -/
def foreignReason (excess : ℤ) : String :=
  toString excess ++ " foreign prompt tokens since the last poll"

/-- `update`: the reason to call the engine busy (empty if there is none), and the detector
after the poll. -/
def update (d : ForeignDetector) (m : Metrics) (ours : ℕ) : String × ForeignDetector :=
  let reason := if m.running + m.waiting > ours then engineReason m ours else ""
  match d.prev with
  | none => (reason, { d with prev := some m.promptTokens })
  | some prev =>
    let delta : ℤ := m.promptTokens - prev
    let excess := delta - d.credit
    let reason := if excess > 0 ∧ reason = "" then foreignReason excess else reason
    (reason, { prev := some m.promptTokens, credit := max 0 (d.credit - delta) })

/-! ### One update -/

/-- A reason is never empty, so it is told from no reason. -/
theorem foreignReason_ne (excess : ℤ) : foreignReason excess ≠ "" := by
  intro h
  obtain ⟨-, htext⟩ := String.append_eq_empty_iff.mp h
  exact absurd htext (by decide)

/-- Every update remembers the counter it has seen. -/
@[simp] theorem prev_update (d : ForeignDetector) (m : Metrics) (ours : ℕ) :
    (d.update m ours).2.prev = some m.promptTokens := by
  rw [update]
  split <;> rfl

/-- The first update leaves the credit as it is. -/
theorem credit_update_first {d : ForeignDetector} (h : d.prev = none) (m : Metrics) (ours : ℕ) :
    (d.update m ours).2.credit = d.credit := by
  rw [update, h]

/-- A later one takes the growth of the counter from it. -/
theorem credit_update {d : ForeignDetector} {prev : ℕ} (h : d.prev = some prev) (m : Metrics)
    (ours : ℕ) :
    (d.update m ours).2.credit = max 0 (d.credit - ((m.promptTokens : ℤ) - prev)) := by
  rw [update, h]

/-- A growth beyond the credit is a reason. -/
theorem reason_of_excess {d : ForeignDetector} {prev : ℕ} (h : d.prev = some prev) {m : Metrics}
    {ours : ℕ} (hexcess : d.credit < (m.promptTokens : ℤ) - prev) :
    (d.update m ours).1 ≠ "" := by
  rw [update, h]
  generalize (if m.running + m.waiting > ours then engineReason m ours else "") = reason
  dsimp only
  split
  · exact foreignReason_ne _
  · rename_i hno
    exact fun hempty => hno ⟨by omega, hempty⟩

end ForeignDetector

/-! ### The watch -/

/-- What happens between the benchmark and the engine. -/
inductive Event
  /-- A rollout is started and its prompt announced. -/
  | expect (tokens : ℕ)
  /-- The engine counts tokens of announced prompts. -/
  | ours (tokens : ℕ)
  /-- The engine counts tokens of other prompts. -/
  | foreign (tokens : ℕ)
  /-- The engine restarts, and its counter with it. -/
  | restart (value : ℕ)
  /-- A poll, with the gauges and the requests in flight at that time. -/
  | update (running waiting ours : ℕ)
deriving Repr, DecidableEq

/-- The detector, the engine's counter, and what the detector cannot see: how much was
announced and how much of it counted, and what the counter went through since the last
poll. -/
structure Watch where
  detector : ForeignDetector
  counter : ℕ
  announced : ℕ
  counted : ℕ
  oursSince : ℕ
  foreignSince : ℕ
  /-- By how much the counter fell. -/
  fellSince : ℕ
deriving Repr, DecidableEq

namespace Watch

/-- The announced prompt tokens that the engine has not counted yet. -/
def uncounted (w : Watch) : ℕ := w.announced - w.counted

/-- The metrics of a poll. -/
def metrics (w : Watch) (running waiting : ℕ) : Metrics := ⟨running, waiting, w.counter⟩

/-- What an event makes of the watch; the engine counts no more of the announced prompts than
there is, and a restart does not raise the counter. -/
def next (w : Watch) : Event → Option Watch
  | .expect tokens => some
      { w with detector := w.detector.expectPrompt tokens, announced := w.announced + tokens }
  | .ours tokens =>
    if tokens ≤ w.uncounted then some
      { w with
        counter := w.counter + tokens
        counted := w.counted + tokens
        oursSince := w.oursSince + tokens }
    else none
  | .foreign tokens => some
      { w with counter := w.counter + tokens, foreignSince := w.foreignSince + tokens }
  | .restart value =>
    if value ≤ w.counter then some
      { w with counter := value, fellSince := w.fellSince + (w.counter - value) }
    else none
  | .update running waiting ours => some
      { w with
        detector := (w.detector.update (w.metrics running waiting) ours).2
        oursSince := 0
        foreignSince := 0
        fellSince := 0 }

/-- A new detector, on an engine that has counted any number of tokens. -/
def start (counter : ℕ) : Watch := ⟨.new, counter, 0, 0, 0, 0, 0⟩

/-- Every sequence of events. -/
def runs : System Watch Event where
  init w := ∃ counter, w = start counter
  step w e w' := w.next e = some w'

/-- An update can be told what the engine did: before the first one the engine has counted
none of the announced prompts, and since the last one its counter has not fallen. -/
def Steady (w : Watch) : Event → Prop
  | .update .. =>
    match w.detector.prev with
    | none => w.counted = 0
    | some _ => w.fellSince = 0
  | _ => True

/-- What holds between two updates of a steady run. -/
structure Inv (w : Watch) : Prop where
  counted : w.counted ≤ w.announced
  credit : 0 ≤ w.detector.credit
  /-- Nothing has been taken from the credit before the first update. -/
  first : w.detector.prev = none → w.detector.credit = w.announced
  /-- Later the credit is for what is uncounted now or was at the last update. -/
  bound : w.detector.prev.isSome → w.detector.credit ≤ w.uncounted + w.oursSince
  /-- The counter against the last poll. -/
  counter : ∀ p, w.detector.prev = some p →
    w.counter + w.fellSince = p + w.oursSince + w.foreignSince

/-! ### Steady runs -/

variable {w w' : Watch}

/-- The first update meets the invariant. -/
theorem inv_start (counter : ℕ) : Inv (start counter) where
  counted := le_refl 0
  credit := le_refl 0
  first _ := rfl
  bound h := nomatch h
  counter _ h := nomatch h

/-- What one event preserves. -/
theorem inv_next {e : Event} (hw : Inv w) (hsteady : Steady w e) (h : w.next e = some w') :
    Inv w' := by
  obtain ⟨hcounted, hcredit, hfirst, hbound, hcounter⟩ := hw
  unfold uncounted at hbound
  cases e with
  | expect tokens =>
    obtain rfl := Option.some.inj h
    refine ⟨?_, ?_, fun hnone => ?_, fun hsome => ?_, hcounter⟩
    · exact hcounted.trans (Nat.le_add_right _ _)
    · show 0 ≤ w.detector.credit + (tokens : ℤ)
      omega
    · show w.detector.credit + (tokens : ℤ) = ((w.announced + tokens : ℕ) : ℤ)
      rw [hfirst hnone, Int.natCast_add]
    · have hb := hbound hsome
      show w.detector.credit + (tokens : ℤ) ≤
        ((w.announced + tokens - w.counted : ℕ) : ℤ) + w.oursSince
      omega
  | ours tokens =>
    rw [next] at h
    split at h
    · rename_i hle
      obtain rfl := Option.some.inj h
      unfold uncounted at hle
      refine ⟨?_, hcredit, hfirst, fun hsome => ?_, fun p hp => ?_⟩
      · show w.counted + tokens ≤ w.announced
        omega
      · -- what is no longer uncounted was counted since the last poll
        have hb := hbound hsome
        show w.detector.credit ≤
          ((w.announced - (w.counted + tokens) : ℕ) : ℤ) + ((w.oursSince + tokens : ℕ) : ℤ)
        omega
      · have hc := hcounter p hp
        show w.counter + tokens + w.fellSince = p + (w.oursSince + tokens) + w.foreignSince
        omega
    · exact nomatch h
  | foreign tokens =>
    obtain rfl := Option.some.inj h
    refine ⟨hcounted, hcredit, hfirst, hbound, fun p hp => ?_⟩
    have hc := hcounter p hp
    show w.counter + tokens + w.fellSince = p + w.oursSince + (w.foreignSince + tokens)
    omega
  | restart value =>
    rw [next] at h
    split at h
    · rename_i hle
      obtain rfl := Option.some.inj h
      refine ⟨hcounted, hcredit, hfirst, hbound, fun p hp => ?_⟩
      have hc := hcounter p hp
      show value + (w.fellSince + (w.counter - value)) = p + w.oursSince + w.foreignSince
      omega
    · exact nomatch h
  | update running waiting ours =>
    obtain rfl := Option.some.inj h
    refine ⟨hcounted, ?_, fun hnone => ?_, fun _ => ?_, fun p hp => ?_⟩
    · cases hprev : w.detector.prev with
      | none =>
        rw [ForeignDetector.credit_update_first hprev]
        exact hcredit
      | some p =>
        rw [ForeignDetector.credit_update hprev]
        exact le_max_left _ _
    · rw [ForeignDetector.prev_update] at hnone
      exact nomatch hnone
    · show (w.detector.update _ ours).2.credit ≤ ((w.announced - w.counted : ℕ) : ℤ) + (0 : ℕ)
      cases hprev : w.detector.prev with
      | none =>
        -- the credit is all that was announced, and none of it is counted
        have hnone : w.counted = 0 := by
          simpa only [Steady, hprev] using hsteady
        have hcredit := hfirst hprev
        rw [ForeignDetector.credit_update_first hprev]
        omega
      | some p =>
        have hfell : w.fellSince = 0 := by
          simpa only [Steady, hprev] using hsteady
        have hb := hbound (by rw [hprev]; rfl)
        have hc := hcounter p hprev
        rw [ForeignDetector.credit_update hprev]
        refine max_le (by omega) ?_
        show w.detector.credit - ((w.counter : ℤ) - p) ≤ _
        omega
    · rw [ForeignDetector.prev_update] at hp
      obtain rfl := Option.some.inj hp
      rfl

/-- The invariant holds in every steady run. -/
theorem inv_of_steady (h : runs.ReachableVia Steady w) : Inv w := by
  refine h.invariant (I := Inv) ?_ fun s e s' hs hsteady hstep => inv_next hs hsteady hstep
  rintro s ⟨counter, rfl⟩
  exact inv_start counter

/-- **The credit masks no more than our own uncounted prompts.** In a run whose updates are
steady, after every update the credit is not negative and at most what was announced and not
counted, and if the engine has counted more foreign tokens than that since the last update,
then the update gives a reason. -/
theorem credit_bounded (h : runs.ReachableVia Steady w) (running waiting ours : ℕ)
    (hsteady : Steady w (.update running waiting ours)) :
    let r := w.detector.update (w.metrics running waiting) ours
    0 ≤ r.2.credit ∧ r.2.credit ≤ w.uncounted ∧
      (w.detector.prev.isSome → w.uncounted < w.foreignSince → r.1 ≠ "") := by
  intro r
  have hw := inv_of_steady h
  have hw' := inv_next hw hsteady rfl
  refine ⟨hw'.credit, ?_, fun hsome hexcess => ?_⟩
  · exact hw'.bound (by rw [ForeignDetector.prev_update]; rfl)
  · obtain ⟨p, hp⟩ := Option.isSome_iff_exists.mp hsome
    have hfell : w.fellSince = 0 := by
      simpa only [Steady, hp] using hsteady
    have hb := hw.bound hsome
    have hc := hw.counter p hp
    refine ForeignDetector.reason_of_excess hp ?_
    show w.detector.credit < (w.counter : ℤ) - p
    omega

/-- An announced prompt, counted together with a short foreign one. -/
def busyWatch : Watch where
  detector := ⟨some 1000, 200⟩
  counter := 1500
  announced := 200
  counted := 200
  oursSince := 200
  foreignSince := 300
  fellSince := 0

/-- Instance: the foreign prompt is noticed behind our own. -/
theorem credit_bounded_busy :
    (busyWatch.detector.update (busyWatch.metrics 1 0) 1).1 ≠ "" := by
  have hstart : runs.ReachableVia Steady (start 1000) := .init ⟨1000, rfl⟩
  have hpolled := hstart.step (l := Event.update 0 0 0) rfl rfl
  have hexpect := hpolled.step (l := Event.expect 200) trivial rfl
  have hours := hexpect.step (l := Event.ours 200) trivial rfl
  have hforeign := hours.step (l := Event.foreign 300) trivial rfl
  exact (credit_bounded hforeign 1 0 1 rfl).2.2 rfl (by decide)

example : busyWatch.detector.update (busyWatch.metrics 1 0) 1 =
    ("300 foreign prompt tokens since the last poll", ⟨some 1500, 0⟩) := by decide

/-- A watch after a restart: nothing is announced, and 500 foreign tokens are counted. -/
def restarted : Watch where
  detector := ⟨some 0, 1000⟩
  counter := 500
  announced := 0
  counted := 0
  oursSince := 0
  foreignSince := 500
  fellSince := 0

/-- **A restart masks foreign traffic**: the fall of the counter becomes credit. -/
theorem restart_masks :
    runs.Reachable restarted ∧ restarted.detector.prev.isSome ∧
      restarted.uncounted < restarted.foreignSince ∧
      ¬ restarted.detector.credit ≤ restarted.uncounted ∧
      (restarted.detector.update (restarted.metrics 0 0) 0).1 = "" := by
  refine ⟨?_, rfl, by decide, by decide, by decide⟩
  have hstart : runs.Reachable (start 1000) := .init ⟨1000, rfl⟩
  have hpolled := hstart.step (l := Event.update 0 0 0) trivial rfl
  have hrestart := hpolled.step (l := Event.restart 0) trivial rfl
  have hagain := hrestart.step (l := Event.update 0 0 0) trivial rfl
  exact hagain.step (l := Event.foreign 500) trivial rfl

end Watch
end Dsv41Overlay.Bench
