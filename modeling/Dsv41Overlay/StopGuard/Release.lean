import Dsv41Overlay.StopGuard.Detokenizer

/-!
# When stop strings are released

An update evaluates stop strings once the guard is closed. What it reports lies
behind the end marker, at least with its end (`report_spec`); but vLLM cuts the text
at the *beginning* of what it reports, and a stop string that begins inside the marker
takes the end of the marker with it. `Spares` excludes this. With `Timely` it is the
exact condition for the guard to be in step with the text after an update
(`good_update_iff`), and so along every run (`stops_released`).
-/

namespace Dsv41Overlay.StopGuard

/-- Where nothing is new, nothing is found. -/
theorem StopChecker.check_zero {stop : List (List Char)} (c : StopChecker stop)
    (text : List Char) : c.check text 0 = none := by
  cases h : c.check text 0 with
  | none => rfl
  | some r =>
    obtain ⟨s, cut⟩ := r
    obtain ⟨-, p, hocc, hend, -⟩ := c.reports text 0 s cut h
    have := hocc.end_le
    omega

/-! ### The characters that are searched -/

/-- The place of the marker that closes the guard: the first one that ends behind the
tokens that `min_tokens` covers. -/
def closing (minTokens : ℕ) (d : Detokenizer) (u : Update) : Option ℕ :=
  if d.reasoningClosed then none
  else findFrom d.reasoningEndStr (newText d u)
    ((earlyText minTokens d u).length - (d.reasoningEndStr.length - 1))

/-- Stop strings are searched for from here on: behind the marker that closes the
guard, else behind the tokens that `min_tokens` covers. -/
def searchFrom (minTokens : ℕ) (d : Detokenizer) (u : Update) : ℕ :=
  match closing minTokens d u with
  | some idx => idx + d.reasoningEndStr.length
  | none => (earlyText minTokens d u).length

/-- What `check_stop_strings` gives in an update that evaluates stop strings. -/
def found {stop : List (List Char)} (c : StopChecker stop) (minTokens : ℕ) (d : Detokenizer)
    (u : Update) : Option (List Char × Option ℕ) :=
  c.check (newText d u) ((newText d u).length - searchFrom minTokens d u)

/-- The update does not cut the end marker: where stop strings are evaluated, the cut
is not before the end of the first marker. -/
def Spares {stop : List (List Char)} (c : StopChecker stop) (minTokens : ℕ) (d : Detokenizer)
    (u : Update) : Prop :=
  minTokens < d.numOutputTokens + u.numTokens → ∀ s cut first,
    found c minTokens d u = some (s, some cut) → FirstAt d.reasoningEndStr (newText d u) first →
      first + d.reasoningEndStr.length ≤ cut

section Update

variable {stop : List (List Char)} {c : StopChecker stop} {minTokens : ℕ} {d : Detokenizer}
  {u : Update}

/-- The offset of the update is where the search begins. -/
theorem evaluate_offset (hguard : d.reasoningStopGuard = true) (hmarker : d.reasoningEndStr ≠ []) :
    (evaluate minTokens d u).2 = searchFrom minTokens d u := by
  have hpos := List.length_pos_iff.mpr hmarker
  unfold evaluate searchFrom closing
  -- a guard that is closed does not search, one that is open searches from the window
  cases hclosed : d.reasoningClosed with
  | true =>
    rw [closeGuard_of_closed ((extend_closed minTokens d u).trans hclosed)]
    exact extend_offset minTokens d u
  | false =>
    unfold closeGuard
    rw [extend_offset, extend_outputText, extend_reasoningEndStr,
      if_pos ⟨hguard, by rw [extend_closed, hclosed]; rfl⟩, if_neg Bool.false_ne_true]
    dsimp only
    cases hfind : findFrom d.reasoningEndStr (newText d u)
        ((earlyText minTokens d u).length - (d.reasoningEndStr.length - 1)) with
    | none => rfl
    | some idx =>
      -- the window begins less than a marker before the offset
      have hle := (findFrom_some hfind).1
      show max _ (idx + d.reasoningEndStr.length) = idx + d.reasoningEndStr.length
      exact max_eq_right (by omega)

theorem evaluate_outputText (minTokens : ℕ) (d : Detokenizer) (u : Update) :
    (evaluate minTokens d u).1.outputText = newText d u :=
  closeGuard_outputText.trans (extend_outputText minTokens d u)

/-- **An update** evaluates stop strings behind a closed guard, once there are more
tokens than `min_tokens`. -/
theorem update_eq (hguard : d.reasoningStopGuard = true) (hmarker : d.reasoningEndStr ≠ []) :
    update c minTokens d u =
      if stop ≠ [] ∧ minTokens < d.numOutputTokens + u.numTokens ∧
          (evaluate minTokens d u).1.reasoningClosed = true then
        match found c minTokens d u with
        | none => ((evaluate minTokens d u).1, none)
        | some (s, none) => ((evaluate minTokens d u).1, some s)
        | some (s, some cut) =>
          ({ (evaluate minTokens d u).1 with outputText := (newText d u).take cut }, some s)
      else ((evaluate minTokens d u).1, none) := by
  have hguard' : (evaluate minTokens d u).1.reasoningStopGuard = true :=
    closeGuard_reasoningStopGuard.trans hguard
  have hnum : (evaluate minTokens d u).1.numOutputTokens = d.numOutputTokens + u.numTokens :=
    closeGuard_numOutputTokens.trans (extend_numOutputTokens minTokens d u)
  unfold update found
  rw [← evaluate_offset hguard hmarker, ← evaluate_outputText minTokens, ← hnum]
  -- with a token, the search reads what the guard has left
  split
  · next hempty =>
    -- without a token the guard stays, and there is nothing to search
    rw [evaluate_of_empty hmarker hempty.1 (by simpa using hempty.2)]
    dsimp only
    rw [Nat.sub_self, c.check_zero]
    split <;> rfl
  · dsimp only
    rw [hguard']
    refine if_congr (by simp) ?_ rfl
    cases c.check (evaluate minTokens d u).1.outputText
      ((evaluate minTokens d u).1.outputText.length - (evaluate minTokens d u).2) with
    | none => rfl
    | some r => obtain ⟨s, cut | cut⟩ := r <;> rfl

/-- An update changes neither the guard nor its marker. -/
theorem update_keeps (hguard : d.reasoningStopGuard = true) (hmarker : d.reasoningEndStr ≠ []) :
    (update c minTokens d u).1.reasoningStopGuard = d.reasoningStopGuard ∧
      (update c minTokens d u).1.reasoningEndStr = d.reasoningEndStr := by
  have hg : (evaluate minTokens d u).1.reasoningStopGuard = d.reasoningStopGuard :=
    closeGuard_reasoningStopGuard
  have hm : (evaluate minTokens d u).1.reasoningEndStr = d.reasoningEndStr :=
    closeGuard_reasoningEndStr
  rw [update_eq hguard hmarker]
  split
  · split <;> exact ⟨hg, hm⟩
  · exact ⟨hg, hm⟩

/-- **What a report means**: the guard is closed, and the stop string ends in the
characters that were searched. -/
theorem report_spec (hguard : d.reasoningStopGuard = true) (hmarker : d.reasoningEndStr ≠ [])
    {s : List Char} (h : (update c minTokens d u).2 = some s) :
    (evaluate minTokens d u).1.reasoningClosed = true ∧
      (update c minTokens d u).1.reasoningClosed = true ∧ s ∈ stop ∧
      ∃ p, OccursAt s (newText d u) p ∧ searchFrom minTokens d u < p + s.length := by
  have hreport : ∀ cut, found c minTokens d u = some (s, cut) → s ∈ stop ∧
      ∃ p, OccursAt s (newText d u) p ∧ searchFrom minTokens d u < p + s.length := by
    intro cut hfound
    -- the search reports an occurrence that ends behind its start
    obtain ⟨hmem, p, hocc, hend, -⟩ := c.reports _ _ s cut hfound
    have := hocc.end_le
    exact ⟨hmem, p, hocc, by omega⟩
  rw [update_eq hguard hmarker] at h ⊢
  split at h
  · next heval =>
    rw [if_pos heval]
    split at h
    · cases h
    · next t hfound =>
      cases h
      exact ⟨heval.2.2, heval.2.2, hreport none hfound⟩
    · next t cut hfound =>
      cases h
      exact ⟨heval.2.2, heval.2.2, hreport (some cut) hfound⟩
  · cases h

/-- The update that closes the guard searches behind the first marker. -/
theorem exists_firstAt_of_closes (hguard : d.reasoningStopGuard = true)
    (hmarker : d.reasoningEndStr ≠ []) (hopen : d.reasoningClosed = false)
    (hclosed : (evaluate minTokens d u).1.reasoningClosed = true) :
    ∃ first, FirstAt d.reasoningEndStr (newText d u) first ∧
      first + d.reasoningEndStr.length ≤ searchFrom minTokens d u := by
  obtain ⟨idx, hidx, hle⟩ := exists_occursAt_of_closes
    ((extend_closed minTokens d u).trans hopen) hclosed
  have hocc : OccursAt d.reasoningEndStr (newText d u) idx := by
    rw [← extend_outputText minTokens]
    exact hidx
  have hoffset : idx + d.reasoningEndStr.length ≤ searchFrom minTokens d u := by
    rw [← evaluate_offset hguard hmarker]
    exact hle
  obtain ⟨first, hfirst, hfirst_le⟩ := hocc.exists_firstAt
  exact ⟨first, hfirst, by omega⟩

/-- An update that is not timely leaves the guard open. -/
theorem not_closed_of_not_timely (hguard : d.reasoningStopGuard = true)
    (hmarker : d.reasoningEndStr ≠ []) (ht : ¬ Timely minTokens d u) :
    (evaluate minTokens d u).1.reasoningClosed ≠ true := by
  intro hclosed
  have hopen : d.reasoningClosed = false := by
    cases h : d.reasoningClosed with
    | true => exact absurd (Or.inl h) ht
    | false => rfl
  refine ht (Or.inr (Or.inr ?_))
  rw [← extend_outputText minTokens, ← extend_offset]
  exact (closeGuard_closed_iff (d := (extend minTokens d u).1) hguard hopen hmarker).mp hclosed

/-- **The conditions are exact**: from a good state, an update leaves a good one if and
only if it is timely and spares the marker. -/
theorem good_update_iff (hguard : d.reasoningStopGuard = true) (hmarker : d.reasoningEndStr ≠ [])
    (hgood : Good d) :
    Good (update c minTokens d u).1 ↔ Timely minTokens d u ∧ Spares c minTokens d u := by
  have hevaluate : Good (evaluate minTokens d u).1 ↔ Timely minTokens d u :=
    good_evaluate_iff hguard hmarker hgood
  have hmarker' : (evaluate minTokens d u).1.reasoningEndStr = d.reasoningEndStr :=
    closeGuard_reasoningEndStr
  by_cases ht : Timely minTokens d u
  swap
  · -- the guard is open, so nothing is reported
    have hopen := not_closed_of_not_timely hguard hmarker ht
    rw [update_eq hguard hmarker, if_neg fun heval => hopen heval.2.2]
    exact iff_of_false (fun h => ht (hevaluate.mp h)) fun h => ht h.1
  have hgood' := hevaluate.mpr ht
  have hiff : (evaluate minTokens d u).1.reasoningClosed = true ↔
      d.reasoningEndStr <:+: newText d u := by
    rw [← hmarker', ← evaluate_outputText minTokens]
    exact hgood'
  rw [update_eq hguard hmarker]
  -- the stop strings are evaluated, or nothing is cut
  split
  · next heval =>
    obtain ⟨p, hocc⟩ := infix_iff_occursAt.mp (hiff.mp heval.2.2)
    obtain ⟨first, hfirst, -⟩ := hocc.exists_firstAt
    split
    · next hnone =>
      exact iff_of_true hgood' ⟨ht, fun _ s cut first h => nomatch hnone.symm.trans h⟩
    · next s hsome =>
      refine iff_of_true hgood' ⟨ht, fun _ s' cut first h => ?_⟩
      cases hsome.symm.trans h
    · next s cut hsome =>
      -- the marker survives if the cut is not before the end of the first one
      have hcut : Good { (evaluate minTokens d u).1 with outputText := (newText d u).take cut } ↔
          first + d.reasoningEndStr.length ≤ cut := by
        rw [← hfirst.infix_take_iff, ← hmarker']
        exact iff_iff_eq.mpr (propext ⟨fun h => h.mp heval.2.2, fun h => iff_of_true heval.2.2 h⟩)
      rw [hcut]
      constructor
      · refine fun hle => ⟨ht, fun _ s' cut' first' h hfirst' => ?_⟩
        cases hsome.symm.trans h
        have := hfirst'.2 first hfirst.1
        have := hfirst.2 first' hfirst'.1
        omega
      · exact fun h => h.2 heval.2.1 s cut first hsome hfirst
  · next heval =>
    refine iff_of_true hgood' ⟨ht, fun hnum s cut first h hfirst => ?_⟩
    -- with a stop string found behind a marker, stop strings are evaluated
    obtain ⟨hmem, -⟩ := c.reports _ _ s (some cut) h
    have hin := hiff.mpr (infix_iff_occursAt.mpr ⟨first, hfirst.1⟩)
    exact absurd ⟨List.ne_nil_of_mem hmem, hnum, hin⟩ heval

end Update

/-! ### Requests -/

/-- The updates of a request: the detokenizer, with what the last update reported. A
reported stop string ends the request. -/
def updates (r : Request) (c : StopChecker r.stop) (minTokens : ℕ) :
    System (Detokenizer × Option (List Char)) Update where
  init p := p = (Detokenizer.new r, none)
  step p u p' := p.2 = none ∧ p' = update c minTokens p.1 u

/-- The end marker is never empty. -/
theorem reasoningStopMarkers_ne_nil (rc : Option ReasoningConfig) :
    (reasoningStopMarkers rc).2 ≠ [] := by
  cases rc with
  | none => decide
  | some rc =>
    show orElse rc.reasoningEndStr "</think>".toList ≠ []
    unfold orElse
    split
    · decide
    · next h => exact h

/-- An armed guard waits for the end marker of the reasoning config. -/
theorem armed_iff {r : Request} {m : List Char} (h : maybeEnableReasoningStopGuard r = some m) :
    m = (reasoningStopMarkers r.rc).2 := by
  unfold maybeEnableReasoningStopGuard at h
  split_ifs at h
  dsimp only at h
  split at h
  · cases h
  · cases h
  · split at h
    · exact (Option.some.inj h).symm
    · cases h

/-- What holds of an armed request's detokenizer in every run. -/
structure Armed (r : Request) (d : Detokenizer) : Prop where
  /-- The guard stays armed. -/
  guard : d.reasoningStopGuard = true
  /-- It waits for the end marker of the config. -/
  marker : d.reasoningEndStr = (reasoningStopMarkers r.rc).2

section Requests

variable {r : Request} {c : StopChecker r.stop} {minTokens : ℕ} {d : Detokenizer}
  {p : Detokenizer × Option (List Char)}

theorem Armed.marker_ne_nil (h : Armed r d) : d.reasoningEndStr ≠ [] := by
  rw [h.marker]
  exact reasoningStopMarkers_ne_nil r.rc

theorem Armed.new (harmed : (Detokenizer.new r).reasoningStopGuard = true) :
    Armed r (Detokenizer.new r) := by
  obtain ⟨m, hm⟩ := Option.isSome_iff_exists.mp harmed
  refine ⟨harmed, ?_⟩
  show (maybeEnableReasoningStopGuard r).getD _ = _
  rw [hm]
  exact armed_iff hm

theorem Armed.update (h : Armed r d) (u : Update) : Armed r (update c minTokens d u).1 := by
  obtain ⟨hguard, hmarker⟩ := update_keeps (c := c) (u := u) h.guard h.marker_ne_nil
  exact ⟨hguard.trans h.guard, hmarker.trans h.marker⟩

/-- At the start the guard is open, and there is no text. -/
theorem good_new (harmed : (Detokenizer.new r).reasoningStopGuard = true) :
    Good (Detokenizer.new r) := by
  refine iff_of_false Bool.false_ne_true fun h => ?_
  exact (Armed.new harmed).marker_ne_nil (List.infix_nil.mp h)

theorem armed_of_reachable (harmed : (Detokenizer.new r).reasoningStopGuard = true)
    (h : (updates r c minTokens).Reachable p) : Armed r p.1 := by
  apply h.invariant
  · rintro p rfl
    exact Armed.new harmed
  · rintro p u p' hp ⟨-, rfl⟩
    exact hp.update u

/-- What an update must meet. -/
def Keeps (c : StopChecker r.stop) (minTokens : ℕ) (p : Detokenizer × Option (List Char))
    (u : Update) : Prop :=
  Timely minTokens p.1 u ∧ Spares c minTokens p.1 u

/-- **Timely and sparing updates keep the guard in step.** -/
theorem good_of_reachable (harmed : (Detokenizer.new r).reasoningStopGuard = true)
    (h : (updates r c minTokens).ReachableVia (Keeps c minTokens) p) : Armed r p.1 ∧ Good p.1 := by
  apply h.invariant
  · rintro p rfl
    exact ⟨Armed.new harmed, good_new harmed⟩
  · rintro p u p' ⟨hp, hgood⟩ hkeeps ⟨-, rfl⟩
    exact ⟨hp.update u, (good_update_iff hp.guard hp.marker_ne_nil hgood).mpr hkeeps⟩

/-- Without `min_tokens` sparing updates do. -/
theorem good_of_reachable_zero (harmed : (Detokenizer.new r).reasoningStopGuard = true)
    (h : (updates r c 0).ReachableVia (fun p u => Spares c 0 p.1 u) p) :
    Armed r p.1 ∧ Good p.1 := by
  apply h.invariant
  · rintro p rfl
    exact ⟨Armed.new harmed, good_new harmed⟩
  · rintro p u p' ⟨hp, hgood⟩ hspares ⟨-, rfl⟩
    refine ⟨hp.update u, (good_update_iff hp.guard hp.marker_ne_nil hgood).mpr ⟨?_, hspares⟩⟩
    exact timely_of_no_min_tokens hgood

end Requests

/-! ### Requests that are served -/

/-- vLLM's search as its docstring has it: each stop string in turn, from the first
place where it could end in the new characters. -/
def searchStops (stop : List (List Char)) (includeInOutput : Bool) (text : List Char) (n : ℕ) :
    Option (List Char × Option ℕ) :=
  if n = 0 then none
  else stop.findSome? fun s =>
    (findFrom s text (text.length + 1 - (n + s.length))).map fun idx =>
      if includeInOutput then
        (s, if text.length ≤ idx + s.length then none else some (idx + s.length))
      else (s, some idx)

/-- That search keeps the rules of a `StopChecker`. -/
theorem searchStops_reports {stop : List (List Char)} {includeInOutput : Bool} {text : List Char}
    {n : ℕ} {s : List Char} {cut : Option ℕ}
    (h : searchStops stop includeInOutput text n = some (s, cut)) :
    s ∈ stop ∧ ∃ p, OccursAt s text p ∧ text.length < p + s.length + n ∧
      (cut = none ∨ cut = some p ∨ cut = some (p + s.length)) := by
  unfold searchStops at h
  split at h
  · cases h
  -- the first stop string that is found
  · obtain ⟨a, ha, hmap⟩ := List.exists_of_findSome?_eq_some h
    obtain ⟨idx, hfind, heq⟩ := Option.map_eq_some_iff.mp hmap
    obtain ⟨hle, hocc⟩ := findFrom_some hfind
    split at heq
    · obtain ⟨rfl, rfl⟩ := Prod.mk.inj heq
      refine ⟨ha, idx, hocc, by omega, ?_⟩
      split
      · exact Or.inl rfl
      · exact Or.inr (Or.inr rfl)
    · obtain ⟨rfl, rfl⟩ := Prod.mk.inj heq
      exact ⟨ha, idx, hocc, by omega, Or.inr (Or.inl rfl)⟩

@[inherit_doc searchStops_reports]
def vllmStops (stop : List (List Char)) (includeInOutput : Bool) : StopChecker stop :=
  ⟨searchStops stop includeInOutput, fun _ _ _ _ => searchStops_reports⟩

/-- A request whose prompt ends with the start token, number 7. -/
def quiz : Request where
  envGlm := none
  envVllm := none
  rc := none
  tokenizer := { convertTokensToIds := some fun _ => .ok (some 7), encode := none }
  stop := ["Q:".toList]
  promptTokenIds := [1, 7]

/-- The first token, which `min_tokens = 1` covers. -/
def opening : Update where
  texts := ["Let me".toList]
  skipped := false

/-- The marker in two tokens, and a stop string behind it. -/
def answer : Update where
  texts := ["</thi".toList, "nk> Q".toList, ":".toList]
  skipped := false

/-- The marker as one of the first two tokens, under `min_tokens = 2`. -/
def shortThought : Update where
  texts := ["</think>".toList, "A".toList]
  skipped := false

/-- A stop string that begins inside the marker takes its end along. -/
example :
    let c := vllmStops [">\n".toList] false
    let d := (update c 0 (Detokenizer.new { quiz with stop := [">\n".toList] })
      ⟨["</think>".toList], false⟩).1
    d.reasoningClosed = true ∧
      update c 0 d ⟨["\n".toList], false⟩ =
        ({ d with outputText := "</think".toList, numOutputTokens := 2 }, some ">\n".toList) := by
  decide

end Dsv41Overlay.StopGuard
