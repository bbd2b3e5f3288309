import Dsv41Overlay.Lib.System
import Dsv41Overlay.Lib.Find

/-!
# Stop strings during reasoning

`patch_suppress_stops_in_reasoning.py` keeps a request's stop strings dormant
while the model is still reasoning. The guard is armed when the prompt ends with
the reasoning start token (`maybeEnableReasoningStopGuard`) and closes once the
end marker is in the decoded text; stop strings are evaluated only then.

An update searches for the marker in a window that starts a marker's length
before `stop_check_offset`. Usually that offset is where the new text starts, so
that every new occurrence is seen. While `min_tokens` is in force, however, vLLM
moves it past the tokens that must not be searched for stop strings, and a marker
that ends there is never looked for again: the guard stays open for the rest of
the request.

`Timely` is the condition under which an update does not lose a marker. It is
exact (`good_evaluate_iff`), and holds always without `min_tokens`
(`timely_of_no_min_tokens`).
-/

namespace Dsv41Overlay.StopGuard

/-! ### Arming the guard -/

/-- What a call of the tokenizer's `encode` may give. -/
inductive Encoded
  | ids (ids : List ℤ)
  | notAList
  | typeError
  | error
  deriving DecidableEq, Repr

/-- The parts of a tokenizer that arming reads; `none` where it is not callable. -/
structure Tokenizer where
  /-- `convert_tokens_to_ids`, which may raise or give `None`. -/
  convertTokensToIds : Option (List Char → Except Unit (Option ℤ))
  /-- `encode`; the flag tells whether `add_special_tokens=False` is passed. -/
  encode : Option (Bool → List Char → Encoded)

/-- The markers of the reasoning config; empty where an attribute is missing. -/
structure ReasoningConfig where
  reasoningStartStr : List Char
  reasoningEndStr : List Char
deriving DecidableEq, Repr

/-- What a detokenizer is created from. `rc` is `none` without a config, also when
looking for one raises. -/
structure Request where
  /-- `GLM53_SUPPRESS_STOPS_IN_REASONING`. -/
  envGlm : Option String
  /-- `VLLM_SUPPRESS_STOPS_IN_REASONING`. -/
  envVllm : Option String
  rc : Option ReasoningConfig
  tokenizer : Tokenizer
  stop : List (List Char)
  promptTokenIds : List ℤ

/-- Python's `a or b` on strings. -/
def orElse (a b : List Char) : List Char := if a = [] then b else a

/-- `_reasoning_stop_markers`. -/
def reasoningStopMarkers (rc : Option ReasoningConfig) : List Char × List Char :=
  match rc with
  | none => ("<think>".toList, "</think>".toList)
  | some rc =>
    (orElse rc.reasoningStartStr "<think>".toList, orElse rc.reasoningEndStr "</think>".toList)

/-- `_suppress_stops_enabled`: the first variable that is set decides. -/
def suppressStopsEnabled (r : Request) : Bool :=
  match r.envGlm with
  | some v => v != "0"
  | none =>
    match r.envVllm with
    | some v => v != "0"
    | none => true

/-- The id of the reasoning start token, by conversion or else as a single encoded
token. -/
def thinkId (t : Tokenizer) (startStr : List Char) : Except Unit (Option ℤ) := do
  let id ← match t.convertTokensToIds with
    | some convert => convert startStr
    | none => pure none
  if id.any fun i => 0 ≤ i then return id
  match t.encode with
  | none => return id
  | some encode =>
    let ids := match encode true startStr with
      | .typeError => encode false startStr
      | ids => ids
    match ids with
    | .ids [i] => return some i
    | .ids _ => return id
    | .notAList => return id
    | .typeError => throw ()
    | .error => throw ()

/-- `_maybe_enable_reasoning_stop_guard`: the end marker to wait for, if the guard is
armed. An exception leaves it unarmed. -/
def maybeEnableReasoningStopGuard (r : Request) : Option (List Char) :=
  if !suppressStopsEnabled r then none
  else if r.stop = [] ∨ r.promptTokenIds = [] then none
  else
    let (startStr, endStr) := reasoningStopMarkers r.rc
    match thinkId r.tokenizer startStr with
    | .error _ => none
    | .ok none => none
    | .ok (some id) => if 0 ≤ id ∧ r.promptTokenIds.getLast? = some id then some endStr else none

/-! ### The detokenizer -/

/-- The fields of the incremental detokenizer that an update reads and writes. -/
@[ext]
structure Detokenizer where
  outputText : List Char
  numOutputTokens : ℕ
  reasoningStopGuard : Bool
  reasoningClosed : Bool
  reasoningEndStr : List Char
deriving DecidableEq, Repr

/-- `from_new_request`. -/
def Detokenizer.new (r : Request) : Detokenizer where
  outputText := []
  numOutputTokens := 0
  reasoningStopGuard := (maybeEnableReasoningStopGuard r).isSome
  reasoningClosed := false
  reasoningEndStr := (maybeEnableReasoningStopGuard r).getD "</think>".toList

/-- vLLM's `check_stop_strings` for the stop strings of a request: it takes the text
and how many characters at its end are new, and gives the stop string found with the
length to cut the text to (`none` for no cut). -/
structure StopChecker (stop : List (List Char)) where
  check : List Char → ℕ → Option (List Char × Option ℕ)
  /-- A reported stop string occurs in the text, ends in its new characters, and the
  text is cut before or behind it or not at all. -/
  reports : ∀ text n s cut, check text n = some (s, cut) → s ∈ stop ∧
    ∃ p, OccursAt s text p ∧ text.length < p + s.length + n ∧
      (cut = none ∨ cut = some p ∨ cut = some (p + s.length))

/-- The new tokens of an update: their decoded texts, and whether a stop token
follows that is not decoded. -/
structure Update where
  texts : List (List Char)
  skipped : Bool
deriving DecidableEq, Repr

/-- The loop over the new tokens, on `output_text`, `num_output_tokens()` and
`stop_check_offset`. -/
def tokenLoop (minTokens : ℕ) : List (List Char) → List Char → ℕ → ℕ → List Char × ℕ × ℕ
  | [], text, num, offset => (text, num, offset)
  | t :: ts, text, num, offset =>
    tokenLoop minTokens ts (text ++ t) (num + 1)
      (if 0 < minTokens ∧ num + 1 ≤ minTokens then (text ++ t).length else offset)

/-- Step 1 of an update: the detokenizer with the new tokens, and
`stop_check_offset`. -/
def extend (minTokens : ℕ) (d : Detokenizer) (u : Update) : Detokenizer × ℕ :=
  let (text, num, offset) :=
    tokenLoop minTokens u.texts d.outputText d.numOutputTokens d.outputText.length
  ({ d with outputText := text, numOutputTokens := if u.skipped then num + 1 else num }, offset)

/-- The search for the end marker, before stop strings are evaluated. -/
def closeGuard (d : Detokenizer) (offset : ℕ) : Detokenizer × ℕ :=
  if d.reasoningStopGuard ∧ !d.reasoningClosed then
    let marker := d.reasoningEndStr
    let window := offset - (marker.length - 1)
    match findFrom marker d.outputText window with
    | some idx => ({ d with reasoningClosed := true }, max offset (idx + marker.length))
    | none => (d, offset)
  else (d, offset)

/-- An update up to the evaluation of stop strings. -/
def evaluate (minTokens : ℕ) (d : Detokenizer) (u : Update) : Detokenizer × ℕ :=
  closeGuard (extend minTokens d u).1 (extend minTokens d u).2

/-- `update`: the detokenizer afterwards, and the stop string that is reported. -/
def update {stop : List (List Char)} (c : StopChecker stop) (minTokens : ℕ) (d : Detokenizer)
    (u : Update) : Detokenizer × Option (List Char) :=
  if u.texts = [] ∧ !u.skipped then (d, none)
  else
    let (d, offset) := evaluate minTokens d u
    if stop ≠ [] ∧ minTokens < d.numOutputTokens ∧ (!d.reasoningStopGuard ∨ d.reasoningClosed) then
      match c.check d.outputText (d.outputText.length - offset) with
      | none => (d, none)
      | some (s, none) => (d, some s)
      | some (s, some cut) => ({ d with outputText := d.outputText.take cut }, some s)
    else (d, none)

/-! ### The token loop -/

/-- The text of the new tokens that `min_tokens` still covers, behind the old text. -/
def earlyText (minTokens : ℕ) (d : Detokenizer) (u : Update) : List Char :=
  d.outputText ++ (u.texts.take (minTokens - d.numOutputTokens)).flatten

/-- The new tokens of an update. -/
def Update.numTokens (u : Update) : ℕ := u.texts.length + if u.skipped then 1 else 0

/-- The text after the new tokens. -/
def newText (d : Detokenizer) (u : Update) : List Char := d.outputText ++ u.texts.flatten

theorem tokenLoop_text (minTokens : ℕ) (ts : List (List Char)) (text : List Char)
    (num offset : ℕ) : (tokenLoop minTokens ts text num offset).1 = text ++ ts.flatten := by
  induction ts generalizing text num offset with
  | nil => exact (List.append_nil text).symm
  | cons t ts ih =>
    unfold tokenLoop
    rw [ih, List.flatten_cons, List.append_assoc]

theorem tokenLoop_num (minTokens : ℕ) (ts : List (List Char)) (text : List Char)
    (num offset : ℕ) : (tokenLoop minTokens ts text num offset).2.1 = num + ts.length := by
  induction ts generalizing text num offset with
  | nil => rfl
  | cons t ts ih =>
    unfold tokenLoop
    rw [ih, List.length_cons, Nat.add_assoc, Nat.add_comm 1]

/-- Past `min_tokens` the offset stays. -/
theorem tokenLoop_offset_of_le {minTokens : ℕ} (ts : List (List Char)) (text : List Char)
    {num : ℕ} (offset : ℕ) (h : minTokens ≤ num) :
    (tokenLoop minTokens ts text num offset).2.2 = offset := by
  induction ts generalizing text num with
  | nil => rfl
  | cons t ts ih =>
    unfold tokenLoop
    rw [if_neg (by omega)]
    exact ih _ (Nat.le_succ_of_le h)

/-- The offset ends behind the tokens that `min_tokens` covers. -/
theorem tokenLoop_offset (minTokens : ℕ) (ts : List (List Char)) (text : List Char) (num : ℕ) :
    (tokenLoop minTokens ts text num text.length).2.2 =
      (text ++ (ts.take (minTokens - num)).flatten).length := by
  induction ts generalizing text num with
  | nil => simp [tokenLoop]
  | cons t ts ih =>
    unfold tokenLoop
    rcases Nat.lt_or_ge num minTokens with h | h
    · obtain ⟨k, hk⟩ := Nat.exists_eq_add_of_lt h
      have hk' : minTokens - num = (minTokens - (num + 1)) + 1 := by omega
      rw [if_pos (by omega), ih, hk', List.take_succ_cons, List.flatten_cons, List.append_assoc]
    · rw [if_neg (by omega), tokenLoop_offset_of_le _ _ _ (by omega), Nat.sub_eq_zero_of_le h]
      simp

section Extend

variable (minTokens : ℕ) (d : Detokenizer) (u : Update)

theorem earlyText_isPrefix_newText : earlyText minTokens d u <+: newText d u := by
  unfold earlyText newText
  refine ⟨(u.texts.drop (minTokens - d.numOutputTokens)).flatten, ?_⟩
  rw [List.append_assoc, ← List.flatten_append, List.take_append_drop]

theorem extend_outputText : (extend minTokens d u).1.outputText = newText d u :=
  tokenLoop_text minTokens u.texts d.outputText d.numOutputTokens d.outputText.length

theorem extend_offset : (extend minTokens d u).2 = (earlyText minTokens d u).length :=
  tokenLoop_offset minTokens u.texts d.outputText d.numOutputTokens

theorem extend_closed : (extend minTokens d u).1.reasoningClosed = d.reasoningClosed := rfl

theorem extend_reasoningEndStr :
    (extend minTokens d u).1.reasoningEndStr = d.reasoningEndStr := rfl

theorem extend_numOutputTokens :
    (extend minTokens d u).1.numOutputTokens = d.numOutputTokens + u.numTokens := by
  have hnum := tokenLoop_num minTokens u.texts d.outputText d.numOutputTokens d.outputText.length
  unfold extend Update.numTokens
  dsimp only
  rw [hnum]
  split <;> omega

end Extend

/-! ### The search for the marker -/

section CloseGuard

variable {d : Detokenizer} {offset : ℕ}

theorem closeGuard_outputText : (closeGuard d offset).1.outputText = d.outputText := by
  unfold closeGuard
  split
  · dsimp only
    split <;> rfl
  · rfl

theorem closeGuard_reasoningEndStr :
    (closeGuard d offset).1.reasoningEndStr = d.reasoningEndStr := by
  unfold closeGuard
  split
  · dsimp only
    split <;> rfl
  · rfl

theorem closeGuard_numOutputTokens :
    (closeGuard d offset).1.numOutputTokens = d.numOutputTokens := by
  unfold closeGuard
  split
  · dsimp only
    split <;> rfl
  · rfl

theorem closeGuard_reasoningStopGuard :
    (closeGuard d offset).1.reasoningStopGuard = d.reasoningStopGuard := by
  unfold closeGuard
  split
  · dsimp only
    split <;> rfl
  · rfl

/-- A closed guard stays closed. -/
theorem closeGuard_of_closed (h : d.reasoningClosed = true) :
    closeGuard d offset = (d, offset) := by
  unfold closeGuard
  rw [h]
  exact if_neg (by simp)

/-- **The window**: an open guard closes exactly when an occurrence of the marker
ends past the offset. -/
theorem closeGuard_closed_iff (hguard : d.reasoningStopGuard = true)
    (hopen : d.reasoningClosed = false) (hmarker : d.reasoningEndStr ≠ []) :
    (closeGuard d offset).1.reasoningClosed = true ↔
      ∃ p, OccursAt d.reasoningEndStr d.outputText p ∧
        offset < p + d.reasoningEndStr.length := by
  have hpos := List.length_pos_iff.mpr hmarker
  unfold closeGuard
  rw [if_pos (by simp [hguard, hopen])]
  dsimp only
  -- either the search finds the marker, or no occurrence ends behind the offset
  split
  · next idx hfind =>
    obtain ⟨hle, hocc⟩ := findFrom_some hfind
    exact iff_of_true rfl ⟨idx, hocc, by omega⟩
  · next hfind =>
    rw [hopen]
    refine iff_of_false Bool.false_ne_true ?_
    rintro ⟨p, hocc, hend⟩
    exact findFrom_eq_none_iff.mp hfind p (by omega) hocc

/-- When the guard closes, an occurrence of the marker ends at or before the new
offset. -/
theorem exists_occursAt_of_closes (hopen : d.reasoningClosed = false)
    (hclosed : (closeGuard d offset).1.reasoningClosed = true) :
    ∃ p, OccursAt d.reasoningEndStr d.outputText p ∧
      p + d.reasoningEndStr.length ≤ (closeGuard d offset).2 := by
  unfold closeGuard at hclosed ⊢
  -- a guard that was open and is closed has found the marker
  split at hclosed
  · next hif =>
    rw [if_pos hif]
    dsimp only at hclosed ⊢
    split at hclosed
    · next idx hfind => exact ⟨idx, (findFrom_some hfind).2, le_max_right _ _⟩
    · rw [hopen] at hclosed
      cases hclosed
  · rw [hopen] at hclosed
    cases hclosed

end CloseGuard

/-! ### One update -/

/-- The guard is closed if and only if the text contains the end marker. -/
def Good (d : Detokenizer) : Prop :=
  d.reasoningClosed = true ↔ d.reasoningEndStr <:+: d.outputText

/-- The update does not lose a marker: the guard is closed already, or the tokens
that `min_tokens` covers do not complete one, or another one ends behind them. -/
def Timely (minTokens : ℕ) (d : Detokenizer) (u : Update) : Prop :=
  d.reasoningClosed = true ∨ ¬ d.reasoningEndStr <:+: earlyText minTokens d u ∨
    ∃ p, OccursAt d.reasoningEndStr (newText d u) p ∧
      (earlyText minTokens d u).length < p + d.reasoningEndStr.length

section Update

variable (minTokens : ℕ) (d : Detokenizer) (u : Update)

/-- The marker is in the new text when it is in the early text, or ends behind it. -/
theorem infix_newText_iff :
    d.reasoningEndStr <:+: newText d u ↔ d.reasoningEndStr <:+: earlyText minTokens d u ∨
      ∃ p, OccursAt d.reasoningEndStr (newText d u) p ∧
        (earlyText minTokens d u).length < p + d.reasoningEndStr.length := by
  obtain ⟨rest, hrest⟩ := earlyText_isPrefix_newText minTokens d u
  constructor
  · intro h
    -- an occurrence ends behind the early text or within it
    obtain ⟨p, hocc⟩ := infix_iff_occursAt.mp h
    rcases Nat.lt_or_ge (earlyText minTokens d u).length (p + d.reasoningEndStr.length) with hp | hp
    · exact Or.inr ⟨p, hocc, hp⟩
    · left
      rw [← hrest] at hocc
      exact infix_iff_occursAt.mpr ⟨p, hocc.of_append hp⟩
  -- an occurrence in the early text is one in the new text
  · rintro (h | ⟨p, hocc, -⟩)
    · exact h.trans (earlyText_isPrefix_newText minTokens d u).isInfix
    · exact infix_iff_occursAt.mpr ⟨p, hocc⟩

variable {minTokens d u}

/-- **The condition is exact**: from a good state, an update leaves a good one for
the evaluation of stop strings if and only if it is timely. -/
theorem good_evaluate_iff (hguard : d.reasoningStopGuard = true) (hmarker : d.reasoningEndStr ≠ [])
    (hgood : Good d) : Good (evaluate minTokens d u).1 ↔ Timely minTokens d u := by
  unfold Good evaluate
  rw [closeGuard_outputText, closeGuard_reasoningEndStr, extend_outputText]
  cases hclosed : d.reasoningClosed with
  | true =>
    -- the marker is in the old text, hence in the new one
    have hold : d.reasoningEndStr <:+: newText d u :=
      (hgood.mp hclosed).trans (List.prefix_append _ _).isInfix
    rw [closeGuard_of_closed ((extend_closed minTokens d u).trans hclosed)]
    exact iff_of_true (iff_of_true hclosed hold) (Or.inl hclosed)
  | false =>
    have hfound : (closeGuard (extend minTokens d u).1 (extend minTokens d u).2).1.reasoningClosed
        = true ↔ ∃ p, OccursAt d.reasoningEndStr (newText d u) p ∧
          (earlyText minTokens d u).length < p + d.reasoningEndStr.length := by
      rw [← extend_outputText minTokens, ← extend_offset]
      exact closeGuard_closed_iff hguard hclosed hmarker
    have hnew := infix_newText_iff minTokens d u
    show (_ ↔ d.reasoningEndStr <:+: newText d u) ↔ _
    unfold Timely
    rw [hclosed]
    -- good states: the marker is found exactly when it is there
    constructor
    · intro h
      by_cases hearly : d.reasoningEndStr <:+: earlyText minTokens d u
      · exact Or.inr (Or.inr (hfound.mp (h.mpr (hnew.mpr (Or.inl hearly)))))
      · exact Or.inr (Or.inl hearly)
    · rintro (h | h | h)
      · cases h
      · refine hfound.trans ?_
        rw [hnew]
        exact ⟨Or.inr, fun hor => hor.resolve_left h⟩
      · exact iff_of_true (hfound.mpr h) (hnew.mpr (Or.inr h))

/-- Without `min_tokens` every update of a good state is timely. -/
theorem timely_of_no_min_tokens (hgood : Good d) : Timely 0 d u := by
  -- the guard is closed, or there is no early text to miss
  cases hclosed : d.reasoningClosed with
  | true => exact Or.inl hclosed
  | false =>
    refine Or.inr (Or.inl ?_)
    have hearly : earlyText 0 d u = d.outputText := by
      unfold earlyText
      rw [Nat.zero_sub, List.take_zero]
      exact List.append_nil _
    rw [hearly]
    intro h
    rw [hgood.mpr h] at hclosed
    cases hclosed

/-- An update without tokens finds nothing. -/
theorem evaluate_of_empty (hmarker : d.reasoningEndStr ≠ []) (htexts : u.texts = [])
    (hskipped : u.skipped = false) : evaluate minTokens d u = (d, d.outputText.length) := by
  have hpos := List.length_pos_iff.mpr hmarker
  have hext : extend minTokens d u = (d, d.outputText.length) := by
    unfold extend
    rw [htexts, hskipped]
    rfl
  unfold evaluate
  rw [hext]
  show closeGuard d d.outputText.length = _
  unfold closeGuard
  split
  · dsimp only
    split
    · next idx hfind =>
      -- an occurrence would end behind the text
      obtain ⟨hle, hocc⟩ := findFrom_some hfind
      have := hocc.end_le
      omega
    · rfl
  · rfl

end Update

end Dsv41Overlay.StopGuard
