import Dsv41Overlay.Lib.Decimal
import Dsv41Overlay.OutputSplit.Pieces

/-!
# Hiding in a stream

`hide` sees a completion as deltas of text and ids, where the text may lag the
ids. It follows the ids through the same loop as the split, so it knows where
each added token's text lands, and hides every `｜` of a delta that is in no such
span.

The proof has two halves. Dropping the spans that are fully streamed changes no
answer, for any deltas at all (`answer_dropped`): a dropped span neither meets a later
delta nor is held back. So the state may be taken to have all spans, and then it
is a function of the ids and the text streamed so far (`Tracks`); one delta keeps
it so, and its answer is read off the decoded pieces (`hideWith_tracks`).
-/

namespace Dsv41Overlay
namespace OutputSplit

open Tokens

/-! ### The code -/

/-- `_OTS_PIPE`. -/
def pipe : Char := Char.ofNat 0xff5c

/-- `_OTS_HIDE`, a noncharacter. -/
def hidden : Char := Char.ofNat 0xfdd0

/-- An added token's place in the stream and its text. -/
abbrev Span := ℕ × List Char

/-- `_OutputTokenStream`. -/
structure OutputTokenStream where
  /-- Ordinary ids since the last added token. -/
  run : List ℕ
  /-- The length of the decode of the ids before `run`. -/
  endAt : ℕ
  /-- Added tokens with a `｜`, not all streamed. -/
  spans : List Span
  /-- Characters streamed so far. -/
  seen : ℕ
  active : Bool
  hidden : ℕ
deriving Repr, DecidableEq

/-- `__init__`. -/
def OutputTokenStream.init : OutputTokenStream := ⟨[], 0, [], 0, true, 0⟩

/-- The loop of `hide` over a delta's ids; an error is the state in which it has
stopped. -/
def follow (s : OutputTokenSplit) (st : OutputTokenStream) :
    List ℕ → Except OutputTokenStream OutputTokenStream
  | [] => .ok st
  | id :: ids =>
    match s.texts id with
    | none => follow s { st with run := st.run ++ [id] } ids
    | some text =>
      let closed := if st.run.isEmpty then st
        else { st with endAt := st.endAt + (s.decode st.run).length, run := [] }
      -- the text ran ahead of its token ids
      if closed.endAt < closed.seen then .error { closed with active := false }
      else
        follow s { closed with
          spans := if pipe ∈ text then closed.spans ++ [(closed.endAt, text)] else closed.spans
          endAt := closed.endAt + text.length } ids

/-- The loop of `hide` over the spans: the positions of the delta inside one,
whether one is held back, and the spans that are not fully streamed. `none` when
a token's text is not where its ids put it. -/
def checkSpans (text : List Char) (start seen : ℕ) :
    List Span → Option (List ℕ × Bool × List Span)
  | [] => some ([], false, [])
  | (place, token) :: rest =>
    let low := max place start
    let high := min (place + token.length) seen
    if low < high ∧ (text.take (high - start)).drop (low - start)
        ≠ (token.take (high - place)).drop (low - place) then none
    else
      match checkSpans text start seen rest with
      | none => none
      | some (real, held, kept) =>
        let real := (if low < high then List.range' (low - start) (high - low) else []) ++ real
        if seen < place + token.length then
          some (real, decide (seen ≤ place) || held, (place, token) :: kept)
        else some (real, held, kept)

/-- The last loop of `hide`, from position `place` on: the text with the `｜`s hidden
that are at no real position, and their number. -/
def hidePipes (real : List ℕ) : ℕ → List Char → List Char × ℕ
  | _, [] => ([], 0)
  | place, c :: rest =>
    let r := hidePipes real (place + 1) rest
    if c = pipe ∧ place ∉ real then (hidden :: r.1, r.2 + 1) else (c :: r.1, r.2)

/-- `hide` behind its loop over the ids, with or without the step that drops the
spans that are fully streamed. -/
def hideText (drop : Bool) (st : OutputTokenStream) (text : List Char) :
    OutputTokenStream × List Char :=
  let start := st.seen
  let seen := st.seen + text.length
  -- the text holds the hiding character
  if hidden ∈ text then ({ st with seen := seen, active := false }, text)
  else
    match checkSpans text start seen st.spans with
    | none => ({ st with seen := seen, active := false }, text)
    | some (real, held, kept) =>
      let st := { st with seen := seen, spans := if drop then kept else st.spans }
      if held then (st, text)
      else
        let r := hidePipes real 0 text
        ({ st with hidden := st.hidden + r.2 }, r.1)

/-- `hide`, with or without dropping. -/
def hideWith (drop : Bool) (s : OutputTokenSplit) (st : OutputTokenStream) (text : List Char)
    (ids : List ℕ) : OutputTokenStream × List Char :=
  if !st.active then (st, text)
  else
    match follow s st ids with
    | .error st => (st, text)
    | .ok st => hideText drop st text

/-- `_OutputTokenStream.hide`. -/
def OutputTokenStream.hide : OutputTokenSplit → OutputTokenStream → List Char → List ℕ →
    OutputTokenStream × List Char := hideWith true

/-! ### The loops -/

/-- A span reaches beyond the text streamed so far. -/
def pending (seen : ℕ) (span : Span) : Bool := decide (seen < span.1 + span.2.length)

/-- The delta's positions inside a span. -/
def realPositions (start seen : ℕ) (span : Span) : List ℕ :=
  if max span.1 start < min (span.1 + span.2.length) seen then
    List.range' (max span.1 start - start)
      (min (span.1 + span.2.length) seen - max span.1 start)
  else []

/-- The delta shows the span's own text where they meet. -/
def Agrees (text : List Char) (start seen : ℕ) (span : Span) : Prop :=
  max span.1 start < min (span.1 + span.2.length) seen →
    (text.take (min (span.1 + span.2.length) seen - start)).drop (max span.1 start - start)
      = (span.2.take (min (span.1 + span.2.length) seen - span.1)).drop (max span.1 start - span.1)

/-- The span is held back as a whole. -/
def isHeld (seen : ℕ) (span : Span) : Bool := pending seen span && decide (seen ≤ span.1)

/-- **What the span loop finds**, when every span agrees with the delta. -/
theorem checkSpans_eq {text : List Char} {start seen : ℕ} {spans : List Span}
    (h : ∀ span ∈ spans, Agrees text start seen span) :
    checkSpans text start seen spans
      = some (spans.flatMap (realPositions start seen), spans.any (isHeld seen),
          spans.filter (pending seen)) := by
  induction spans with
  | nil => rfl
  | cons span spans ih =>
    -- the test of the first span finds no difference
    obtain ⟨place, token⟩ := span
    have hspan := h (place, token) (List.mem_cons_self ..)
    have hno : ¬ (max place start < min (place + token.length) seen ∧
        (text.take (min (place + token.length) seen - start)).drop (max place start - start)
          ≠ (token.take (min (place + token.length) seen - place)).drop
            (max place start - place)) :=
      fun hc => hc.2 (hspan hc.1)
    rw [checkSpans]
    dsimp only
    rw [if_neg hno, ih fun span hs => h span (List.mem_cons_of_mem _ hs), List.flatMap_cons,
      List.any_cons]
    dsimp only
    -- the span is kept if it goes on behind the delta
    split
    · next hlt =>
      have hpending : pending seen (place, token) = true := decide_eq_true hlt
      rw [List.filter_cons_of_pos hpending, isHeld, hpending, Bool.true_and]
      rfl
    · next hge =>
      have hpending : pending seen (place, token) = false := decide_eq_false hge
      rw [List.filter_cons_of_neg (by rw [hpending]; exact Bool.false_ne_true), isHeld, hpending,
        Bool.false_and, Bool.false_or]
      rfl

/-- A span that was fully streamed before the delta does not count. -/
theorem checkSpans_filter (text : List Char) {start seen : ℕ} (hle : start ≤ seen)
    (spans : List Span) :
    checkSpans text start seen (spans.filter (pending start))
      = checkSpans text start seen spans := by
  induction spans with
  | nil => rfl
  | cons span spans ih =>
    obtain ⟨place, token⟩ := span
    by_cases hp : pending start (place, token) = true
    -- a span that is kept is tested in both runs
    · rw [List.filter_cons_of_pos hp, checkSpans, checkSpans, ih]
    · have hend : place + token.length ≤ start := by
        simpa [pending] using hp
      -- a span that ends at or before `start` does not meet the delta
      have hlow : ¬ max place start < min (place + token.length) seen := by omega
      rw [List.filter_cons_of_neg hp, ih, checkSpans]
      dsimp only
      rw [if_neg fun hc => hlow hc.1, if_neg hlow]
      cases checkSpans text start seen spans with
      | none => rfl
      | some r => exact (if_neg (by omega)).symm

/-! ### Dropping spans -/

/-- The state without the spans that are fully streamed. -/
def dropStreamed (st : OutputTokenStream) : OutputTokenStream :=
  { st with spans := st.spans.filter (pending st.seen) }

/-- A state agrees with one that keeps all spans: it lacks those that are fully
streamed, or both have stopped. -/
def Dropped (st all : OutputTokenStream) : Prop :=
  st = dropStreamed all ∨ st.active = false ∧ all.active = false

/-- **New spans are not streamed yet**, so following the ids commutes with
dropping. -/
theorem follow_dropStreamed (s : OutputTokenSplit) (all : OutputTokenStream) (ids : List ℕ) :
    follow s (dropStreamed all) ids
      = match follow s all ids with
        | .error st => .error (dropStreamed st)
        | .ok st => .ok (dropStreamed st) := by
  induction ids generalizing all with
  | nil => rfl
  | cons id ids ih =>
    rw [follow, follow]
    cases htext : s.texts id with
    | none => exact ih { all with run := all.run ++ [id] }
    | some text =>
      dsimp only
      -- closing the run does not look at the spans
      have hclosed : (if (dropStreamed all).run.isEmpty then dropStreamed all
            else { dropStreamed all with
              endAt := (dropStreamed all).endAt + (s.decode (dropStreamed all).run).length
              run := [] })
          = dropStreamed (if all.run.isEmpty then all
            else { all with endAt := all.endAt + (s.decode all.run).length, run := [] }) := by
        show (if all.run.isEmpty then _ else _) = _
        split <;> rfl
      rw [hclosed]
      generalize (if all.run.isEmpty then all
        else { all with endAt := all.endAt + (s.decode all.run).length, run := [] }) = closed
      show (if closed.endAt < closed.seen then _ else _) = _
      split
      · rfl
      · next hahead =>
        rw [← ih]
        refine congrArg (fun spans => follow s { closed with
          spans := spans, endAt := closed.endAt + text.length } ids) ?_
        show (if pipe ∈ text then
              closed.spans.filter (pending closed.seen) ++ [(closed.endAt, text)]
            else closed.spans.filter (pending closed.seen))
          = List.filter (pending closed.seen)
              (if pipe ∈ text then closed.spans ++ [(closed.endAt, text)] else closed.spans)
        split
        · next hpipe =>
          have hpos : 0 < text.length := List.length_pos_of_mem hpipe
          -- the guard puts the new span at or behind `seen`, and a `｜` makes it non-empty
          have hpending : pending closed.seen (closed.endAt, text) = true := by
            rw [pending, decide_eq_true_eq]
            dsimp only
            omega
          rw [List.filter_append, List.filter_cons_of_pos hpending]
          rfl
        · rfl

/-- The spans that are kept are those not fully streamed. -/
theorem checkSpans_kept {text : List Char} {start seen : ℕ} {spans kept : List Span}
    {real : List ℕ} {held : Bool}
    (h : checkSpans text start seen spans = some (real, held, kept)) :
    kept = spans.filter (pending seen) := by
  induction spans generalizing real held kept with
  | nil =>
    obtain ⟨-, -, rfl⟩ : [] = real ∧ false = held ∧ [] = kept := by simpa [checkSpans] using h
    rfl
  | cons span spans ih =>
    obtain ⟨place, token⟩ := span
    rw [checkSpans] at h
    dsimp only at h
    split at h
    · exact absurd h (by simp)
    -- the spans behind the first one
    · cases hrest : checkSpans text start seen spans with
      | none =>
        rw [hrest] at h
        exact absurd h (by simp)
      | some r =>
        obtain ⟨real', held', kept'⟩ := r
        rw [hrest] at h
        dsimp only at h
        rw [List.filter_cons, ← ih hrest]
        -- this one stays if it ends behind the delta
        by_cases hlt : seen < place + token.length
        · rw [if_pos hlt] at h
          have hpending : pending seen (place, token) = true := decide_eq_true hlt
          rw [hpending, if_pos rfl]
          exact ((Prod.mk.inj (Prod.mk.inj (Option.some.inj h)).2).2).symm
        · rw [if_neg hlt] at h
          have hpending : pending seen (place, token) = false := decide_eq_false hlt
          rw [hpending, if_neg Bool.false_ne_true]
          exact ((Prod.mk.inj (Prod.mk.inj (Option.some.inj h)).2).2).symm

theorem hideText_dropStreamed (st : OutputTokenStream) (text : List Char) :
    (hideText true (dropStreamed st) text).2 = (hideText false st text).2
      ∧ Dropped (hideText true (dropStreamed st) text).1 (hideText false st text).1 := by
  have hle : st.seen ≤ st.seen + text.length := Nat.le_add_right _ _
  -- the two states differ in spans that `checkSpans` ignores
  have hcheck : checkSpans text (dropStreamed st).seen ((dropStreamed st).seen + text.length)
      (dropStreamed st).spans = checkSpans text st.seen (st.seen + text.length) st.spans :=
    checkSpans_filter text hle st.spans
  unfold hideText
  dsimp only
  -- so the same answer, and states that differ in the same way
  rw [hcheck]
  split
  · exact ⟨rfl, .inr ⟨rfl, rfl⟩⟩
  · cases hspans : checkSpans text st.seen (st.seen + text.length) st.spans with
    | none => exact ⟨rfl, .inr ⟨rfl, rfl⟩⟩
    | some r =>
      obtain ⟨real, held, kept⟩ := r
      obtain rfl := checkSpans_kept hspans
      cases held with
      | true => exact ⟨rfl, .inl rfl⟩
      | false => exact ⟨rfl, .inl rfl⟩

/-- **Dropping spans changes no answer**, one delta at a time. -/
theorem hideWith_dropped (s : OutputTokenSplit) {st all : OutputTokenStream}
    (h : Dropped st all) (text : List Char) (ids : List ℕ) :
    (hideWith true s st text ids).2 = (hideWith false s all text ids).2
      ∧ Dropped (hideWith true s st text ids).1 (hideWith false s all text ids).1 := by
  -- an active stream, or one that has given up
  obtain rfl | ⟨hst, hall⟩ := h
  · have hactive_eq : (dropStreamed all).active = all.active := rfl
    unfold hideWith
    rw [follow_dropStreamed, hactive_eq]
    cases hactive : all.active with
    | false => exact ⟨rfl, .inr ⟨hactive, hactive⟩⟩
    | true =>
      cases follow s all ids with
      | error st => exact ⟨rfl, .inl rfl⟩
      | ok st => exact hideText_dropStreamed st text
  · unfold hideWith
    rw [hst, hall]
    exact ⟨rfl, .inr ⟨hst, hall⟩⟩

/-! ### Spans of the decoded text -/

/-- The added tokens of pieces and the places of their texts, from position `p` on. -/
def spans : ℕ → List Piece → List Span
  | _, [] => []
  | p, .ordinary t :: rest => spans (p + t.length) rest
  | p, .token t :: rest => (p, t) :: spans (p + t.length) rest

theorem spans_append (p : ℕ) (a b : List Piece) :
    spans p (a ++ b) = spans p a ++ spans (p + (Piece.join a).length) b := by
  induction a generalizing p with
  | nil => rfl
  | cons x a ih =>
    cases x with
    | ordinary t =>
      rw [List.cons_append, spans, spans, ih, Piece.join_cons, List.length_append, Nat.add_assoc]
      rfl
    | token t =>
      rw [List.cons_append, spans, spans, ih, Piece.join_cons, List.length_append, Nat.add_assoc]
      rfl

/-- **A span shows its token's text.** -/
theorem join_of_mem_spans {p : ℕ} {ps : List Piece} {span : Span} (h : span ∈ spans p ps) :
    ∃ a b, Piece.join ps = a ++ (span.2 ++ b) ∧ span.1 = p + a.length := by
  induction ps generalizing p with
  | nil => exact absurd h List.not_mem_nil
  | cons x ps ih =>
    -- the span is the first token, or stands further back
    cases x with
    | ordinary t =>
      obtain ⟨a, b, hab, hp⟩ := ih h
      refine ⟨t ++ a, b, ?_, ?_⟩
      · rw [Piece.join_cons, hab, Piece.text_ordinary, List.append_assoc]
      · rw [hp, List.length_append, Nat.add_assoc]
    | token t =>
      obtain rfl | h := List.mem_cons.mp h
      · exact ⟨[], Piece.join ps, Piece.join_cons _ _, rfl⟩
      · obtain ⟨a, b, hab, hp⟩ := ih h
        refine ⟨t ++ a, b, ?_, ?_⟩
        · rw [Piece.join_cons, hab, Piece.text_token, List.append_assoc]
        · rw [hp, List.length_append, Nat.add_assoc]

/-- The characters of a span in the decoded text. -/
theorem getElem?_join_of_mem_spans {ps : List Piece} {span : Span} (h : span ∈ spans 0 ps) {i : ℕ}
    (hi : i < span.2.length) : (Piece.join ps)[span.1 + i]? = span.2[i]? := by
  obtain ⟨a, b, hab, hp⟩ := join_of_mem_spans h
  rw [Nat.zero_add] at hp
  rw [hab, hp, List.getElem?_append_right (Nat.le_add_right _ _), Nat.add_sub_cancel_left,
    List.getElem?_append_left hi]

/-- The spans whose token has a `｜`. -/
def pipeSpans (ps : List Piece) : List Span :=
  (spans 0 ps).filter fun span => decide (pipe ∈ span.2)

theorem spans_openPiece (s : OutputTokenSplit) (p : ℕ) (run : List ℕ) :
    spans p (openPiece s run) = [] := by
  unfold openPiece
  split <;> rfl

/-- The open run has no span. -/
theorem spans_pieces (s : OutputTokenSplit) (ids : List ℕ) :
    spans 0 (pieces s ids) = spans 0 ((layoutLoop s ids).closed s) := by
  rw [pieces_eq, spans_append, spans_openPiece, List.append_nil]

/-! ### The state that keeps all spans -/

/-- The state is what the ids and the text received so far make it. -/
structure Tracks (s : OutputTokenSplit) (ids : List ℕ) (text : List Char)
    (st : OutputTokenStream) : Prop where
  /-- The open run is the loop's. -/
  run : st.run = (layoutLoop s ids).run
  /-- `endAt` is where the open run begins. -/
  endAt : st.endAt = (Piece.join ((layoutLoop s ids).closed s)).length
  /-- The spans are those of the tokens with a `｜`. -/
  spans : st.spans = pipeSpans ((layoutLoop s ids).closed s)
  seen : st.seen = text.length
  active : st.active = true

/-- The streamed text is a prefix of the decode at the time of each new added
token of a delta. -/
def Ahead (s : OutputTokenSplit) (ids : List ℕ) (streamed : ℕ) (more : List ℕ) : Prop :=
  ∀ a id b, more = a ++ id :: b → s.texts id ≠ none →
    streamed ≤ (Piece.join (pieces s (ids ++ a))).length

/-- **Following the ids** tracks them. -/
theorem follow_tracks {s : OutputTokenSplit} {ids more : List ℕ} {text : List Char}
    {st : OutputTokenStream} (h : Tracks s ids text st) (hahead : Ahead s ids text.length more) :
    ∃ st', follow s st more = .ok st' ∧ Tracks s (ids ++ more) text st' := by
  induction more generalizing ids st with
  | nil => exact ⟨st, rfl, by rw [List.append_nil]; exact h⟩
  | cons id more ih =>
    -- the induction moves the received ids by one, and the guard with them
    have hrest : Ahead s (ids ++ [id]) text.length more := by
      intro a id' b hab hid
      have := hahead (id :: a) id' b (by rw [hab]; rfl) hid
      rwa [List.append_assoc]
    have hids : ids ++ id :: more = ids ++ [id] ++ more := by rw [List.append_assoc]; rfl
    have hpush : layoutLoop s (ids ++ [id]) = (layoutLoop s ids).push s id := by
      rw [layoutLoop_append]
      rfl
    have hclosed := closed_push s (layoutLoop s ids) id
    rw [← hpush] at hclosed
    rw [follow, hids]
    -- an ordinary id joins the open run, a token closes it
    cases htext : s.texts id with
    | none =>
      rw [htext] at hclosed
      refine ih ⟨?_, ?_, ?_, h.seen, h.active⟩ hrest
      · rw [hpush, Layout.push, htext]
        exact congrArg (· ++ [id]) h.run
      · rw [hclosed]
        exact h.endAt
      · rw [hclosed]
        exact h.spans
    | some token =>
      rw [htext] at hclosed
      dsimp only at hclosed ⊢
      -- closing the run moves `endAt` behind it
      have hend : (if st.run.isEmpty then st
            else { st with endAt := st.endAt + (s.decode st.run).length, run := [] })
          = { st with endAt := (Piece.join (pieces s ids)).length, run := [] } := by
        rw [pieces_eq, Piece.join_append, List.length_append, ← h.endAt, ← h.run, openPiece]
        split
        · next hempty =>
          rw [List.isEmpty_iff] at hempty
          rw [Piece.join_nil, List.length_nil, Nat.add_zero, ← hempty]
        · simp [Piece.join]
      have hle := hahead [] id more rfl (by rw [htext]; exact Option.some_ne_none _)
      rw [List.append_nil] at hle
      rw [hend]
      dsimp only
      -- the text is not ahead, so `hide` goes on
      rw [if_neg (by rw [h.seen]; exact Nat.not_lt.mpr hle)]
      refine ih ⟨?_, ?_, ?_, h.seen, h.active⟩ hrest
      · rw [hpush, Layout.push, htext]
      · rw [hclosed, ← pieces_eq, Piece.join_append, List.length_append]
        simp [Piece.join]
      · rw [hclosed, ← pieces_eq, pipeSpans, spans_append, spans_pieces, List.filter_append,
          Nat.zero_add]
        show (if pipe ∈ token then st.spans ++ _ else st.spans) = pipeSpans _ ++ _
        rw [h.spans]
        split
        · next hpipe => simp [spans, hpipe]
        · next hpipe => simp [spans, hpipe]

/-! ### The answer -/

/-- The stream position `p` lies inside the span. -/
def Span.Covers (span : Span) (p : ℕ) : Prop := span.1 ≤ p ∧ p < span.1 + span.2.length

/-- **What hiding may do** to a delta that begins at `start`, where `spans` are the
added tokens' places. -/
structure HidesExactly (spans : List Span) (start : ℕ) (text out : List Char) : Prop where
  length_eq : out.length = text.length
  /-- Only `｜` is replaced, by the hiding character. -/
  only_pipes : ∀ i : ℕ, out[i]? ≠ text[i]? → text[i]? = some pipe ∧ out[i]? = some hidden
  /-- Nothing inside an added token's span is replaced. -/
  outside : ∀ i : ℕ, out[i]? ≠ text[i]? → ∀ span ∈ spans, ¬ Span.Covers span (start + i)
  /-- When no token with a `｜` is held back, every other `｜` is replaced. -/
  all_others : (∀ span ∈ spans, pipe ∈ span.2 → span.1 < start + text.length) →
    ∀ i : ℕ, text[i]? = some pipe → (∀ span ∈ spans, ¬ Span.Covers span (start + i)) →
      out[i]? = some hidden

theorem length_hidePipes (real : List ℕ) (p : ℕ) (text : List Char) :
    (hidePipes real p text).1.length = text.length := by
  induction text generalizing p with
  | nil => rfl
  | cons c text ih =>
    rw [hidePipes]
    split <;> rw [List.length_cons, List.length_cons, ih]

theorem getElem?_hidePipes (real : List ℕ) (p : ℕ) (text : List Char) (i : ℕ) :
    (hidePipes real p text).1[i]?
      = (text[i]?).map fun c => if c = pipe ∧ p + i ∉ real then hidden else c := by
  induction text generalizing p i with
  | nil => rfl
  | cons c text ih =>
    rw [hidePipes]
    -- the character at the place, then the ones behind it
    cases i with
    | zero =>
      rw [List.getElem?_cons_zero, Option.map_some, Nat.add_zero]
      split
      · next h => exact congrArg some (if_pos h).symm
      · next h => exact congrArg some (if_neg h).symm
    | succ i =>
      rw [List.getElem?_cons_succ, show p + (i + 1) = p + 1 + i by omega, ← ih]
      split <;> rfl

/-- A character that changes is a `｜` at no real position, and is hidden. -/
theorem hidePipes_change {real : List ℕ} {text : List Char} {i : ℕ}
    (h : (hidePipes real 0 text).1[i]? ≠ text[i]?) :
    text[i]? = some pipe ∧ (hidePipes real 0 text).1[i]? = some hidden ∧ i ∉ real := by
  rw [getElem?_hidePipes, Nat.zero_add] at h ⊢
  cases htext : text[i]? with
  | none => exact absurd (by rw [htext]; rfl) h
  | some c =>
    rw [htext, Option.map_some] at h
    by_cases hc : c = pipe ∧ i ∉ real
    · rw [Option.map_some, if_pos hc]
      exact ⟨congrArg some hc.1, rfl, hc.2⟩
    · exact absurd (by rw [if_neg hc]) h

/-- The real positions of a delta are those inside a span. -/
theorem mem_realPositions {start seen i : ℕ} {span : Span} :
    i ∈ realPositions start seen span ↔ Span.Covers span (start + i) ∧ start + i < seen := by
  unfold realPositions Span.Covers
  split
  · rw [List.mem_range'_1]
    omega
  · refine ⟨fun h => absurd h List.not_mem_nil, fun h => ?_⟩
    omega

/-- The characters of a delta in the decoded text. -/
theorem getElem?_delta {before text joined : List Char} (h : before ++ text <+: joined) {i : ℕ}
    (hi : i < text.length) : text[i]? = joined[before.length + i]? := by
  obtain ⟨rest, rfl⟩ := h
  rw [List.append_assoc, List.getElem?_append_right (Nat.le_add_right _ _),
    Nat.add_sub_cancel_left, List.getElem?_append_left hi]

/-- **A delta shows its tokens' texts**, since it is a part of the decoded text. -/
theorem agrees_of_prefix {before text : List Char} {ps : List Piece}
    (h : before ++ text <+: Piece.join ps) {span : Span} (hspan : span ∈ spans 0 ps) :
    Agrees text before.length (before.length + text.length) span := by
  intro hlt
  -- both sides are characters of the decoded text, from the same place on
  refine List.ext_getElem? fun i => ?_
  obtain ⟨place, token⟩ := span
  dsimp only at hlt ⊢
  rw [List.getElem?_drop, List.getElem?_drop, List.getElem?_take, List.getElem?_take]
  by_cases hi : max place before.length + i
      < min (place + token.length) (before.length + text.length)
  -- inside the overlap both are the same character of the text
  · rw [if_pos (by omega), if_pos (by omega), getElem?_delta h (by omega)]
    have htoken := getElem?_join_of_mem_spans hspan
      (show max place before.length - place + i < token.length by omega)
    rw [← htoken]
    refine congrArg (fun j => (Piece.join ps)[j]?) ?_
    dsimp only
    omega
  -- outside there is no character on either side
  · rw [if_neg (by omega), if_neg (by omega)]

/-- A span that covers a `｜` of the delta is a token with a `｜`. -/
theorem pipe_mem_of_covers {before text : List Char} {ps : List Piece}
    (h : before ++ text <+: Piece.join ps) {span : Span} (hspan : span ∈ spans 0 ps) {i : ℕ}
    (hi : text[i]? = some pipe) (hcovers : Span.Covers span (before.length + i)) :
    pipe ∈ span.2 := by
  obtain ⟨hlt, -⟩ := List.getElem?_eq_some_iff.mp hi
  obtain ⟨hlo, hhi⟩ := hcovers
  have htoken := getElem?_join_of_mem_spans hspan
    (show before.length + i - span.1 < span.2.length by omega)
  rw [show span.1 + (before.length + i - span.1) = before.length + i by omega,
    ← getElem?_delta h hlt, hi] at htoken
  exact List.mem_of_getElem? htoken.symm

/-- **The answer to one delta**, and the state behind it. -/
theorem hideText_tracks {s : OutputTokenSplit} {ids : List ℕ} {before text : List Char}
    {st : OutputTokenStream} (h : Tracks s ids before st) (hno : hidden ∉ text)
    (hpre : before ++ text <+: Piece.join (pieces s ids)) :
    Tracks s ids (before ++ text) (hideText false st text).1
      ∧ HidesExactly (spans 0 (pieces s ids)) before.length text (hideText false st text).2 := by
  obtain ⟨run, endAt, kept, seen, active, count⟩ := st
  obtain rfl : seen = before.length := h.seen
  -- the state holds the spans of the tokens with a `｜`
  have hmem : ∀ span, span ∈ kept ↔ span ∈ spans 0 (pieces s ids) ∧ pipe ∈ span.2 := by
    intro span
    have hkept : kept = pipeSpans ((layoutLoop s ids).closed s) := h.spans
    rw [hkept, pipeSpans, ← spans_pieces, List.mem_filter, decide_eq_true_eq]
  have hcheck := checkSpans_eq fun span hs => agrees_of_prefix hpre ((hmem span).mp hs).1
  have htracks : ∀ n, Tracks s ids (before ++ text)
      ⟨run, endAt, kept, before.length + text.length, active, n⟩ := fun n =>
    ⟨h.run, h.endAt, h.spans, List.length_append.symm, h.active⟩
  unfold hideText
  dsimp only
  rw [if_neg hno, hcheck]
  dsimp only
  cases hheld : kept.any (isHeld (before.length + text.length)) with
  | true =>
    -- some token is held back: the delta is left as it is
    refine ⟨htracks count, rfl, fun i hi => absurd rfl hi, fun i hi => absurd rfl hi,
      fun hall => ?_⟩
    obtain ⟨span, hs, hspan⟩ := List.any_eq_true.mp hheld
    rw [isHeld, Bool.and_eq_true, decide_eq_true_eq] at hspan
    exact absurd (hall span ((hmem span).mp hs).1 ((hmem span).mp hs).2) (by omega)
  | false =>
    -- a position counts as real when some span with a `｜` covers it
    have hreal : ∀ i < text.length,
        (i ∈ kept.flatMap (realPositions before.length (before.length + text.length))
          ↔ ∃ span ∈ kept, Span.Covers span (before.length + i)) := by
      intro i hi
      rw [List.mem_flatMap]
      refine exists_congr fun span => and_congr_right fun _ => ?_
      rw [mem_realPositions]
      exact and_iff_left (by omega)
    refine ⟨htracks _, length_hidePipes _ _ _, ?_, ?_, ?_⟩
    · intro i hi
      obtain ⟨hpipe, hout, -⟩ := hidePipes_change hi
      exact ⟨hpipe, hout⟩
    · intro i hi span hspan hcovers
      obtain ⟨hpipe, -, hnot⟩ := hidePipes_change hi
      obtain ⟨hlt, -⟩ := List.getElem?_eq_some_iff.mp hpipe
      -- the covering token has this `｜` in its own text, so its span is kept
      have htoken := pipe_mem_of_covers hpre hspan hpipe hcovers
      exact hnot ((hreal i hlt).mpr ⟨span, (hmem span).mpr ⟨hspan, htoken⟩, hcovers⟩)
    · intro _ i hpipe hnone
      obtain ⟨hlt, -⟩ := List.getElem?_eq_some_iff.mp hpipe
      have hnot : i ∉ kept.flatMap
          (realPositions before.length (before.length + text.length)) := by
        rw [hreal i hlt]
        rintro ⟨span, hspan, hcovers⟩
        exact hnone span ((hmem span).mp hspan).1 hcovers
      show (hidePipes _ 0 text).1[i]? = some hidden
      rw [getElem?_hidePipes, hpipe, Option.map_some, Nat.zero_add, if_pos ⟨rfl, hnot⟩]

/-! ### Runs -/

/-- One call of `hide`. -/
structure Delta where
  text : List Char
  ids : List ℕ
deriving Repr, DecidableEq

/-- The text streamed by deltas. -/
def streamedText (deltas : List Delta) : List Char := deltas.flatMap Delta.text

/-- The ids received with deltas. -/
def receivedIds (deltas : List Delta) : List ℕ := deltas.flatMap Delta.ids

/-- The state after deltas. -/
def stateAfter (drop : Bool) (s : OutputTokenSplit) (deltas : List Delta) : OutputTokenStream :=
  deltas.foldl (fun st d => (hideWith drop s st d.text d.ids).1) .init

/-- The answer to a delta that follows others. -/
def answer (drop : Bool) (s : OutputTokenSplit) (before : List Delta) (d : Delta) : List Char :=
  (hideWith drop s (stateAfter drop s before) d.text d.ids).2

/-- What a detokenizer may stream next: no hiding character, a text that stays a
prefix of the decode, and added tokens whose place is not streamed yet. -/
structure ValidDelta (s : OutputTokenSplit) (before : List Delta) (d : Delta) : Prop where
  no_hidden : hidden ∉ d.text
  aligned : streamedText before ++ d.text
    <+: Piece.join (pieces s (receivedIds before ++ d.ids))
  ahead : Ahead s (receivedIds before) (streamedText before).length d.ids

/-- Every delta of the stream is valid. -/
def ValidStream (s : OutputTokenSplit) (deltas : List Delta) : Prop :=
  ∀ before d after, deltas = before ++ d :: after → ValidDelta s before d

theorem ValidStream.of_append {s : OutputTokenSplit} {before rest : List Delta}
    (h : ValidStream s (before ++ rest)) : ValidStream s before :=
  fun a d b hab => h a d (b ++ rest) (by rw [hab, List.append_assoc]; rfl)

theorem stateAfter_append_singleton (drop : Bool) (s : OutputTokenSplit) (before : List Delta)
    (d : Delta) :
    stateAfter drop s (before ++ [d])
      = (hideWith drop s (stateAfter drop s before) d.text d.ids).1 := by
  rw [stateAfter, List.foldl_append]
  rfl

/-- **Dropping spans changes no answer** of any stream. -/
theorem stateAfter_dropped (s : OutputTokenSplit) (deltas : List Delta) :
    Dropped (stateAfter true s deltas) (stateAfter false s deltas) := by
  induction deltas using List.reverseRecOn with
  | nil => exact .inl rfl
  | append_singleton before d ih =>
    rw [stateAfter_append_singleton, stateAfter_append_singleton]
    exact (hideWith_dropped s ih d.text d.ids).2

theorem answer_dropped (s : OutputTokenSplit) (before : List Delta) (d : Delta) :
    answer true s before d = answer false s before d :=
  (hideWith_dropped s (stateAfter_dropped s before) d.text d.ids).1

/-- One valid delta keeps the tracking and is answered exactly. -/
theorem hideWith_tracks {s : OutputTokenSplit} {before : List Delta} {d : Delta}
    {st : OutputTokenStream} (h : Tracks s (receivedIds before) (streamedText before) st)
    (hd : ValidDelta s before d) :
    Tracks s (receivedIds (before ++ [d])) (streamedText (before ++ [d]))
        (hideWith false s st d.text d.ids).1
      ∧ HidesExactly (spans 0 (pieces s (receivedIds (before ++ [d])))) (streamedText before).length
          d.text (hideWith false s st d.text d.ids).2 := by
  have hids : receivedIds (before ++ [d]) = receivedIds before ++ d.ids := by
    simp [receivedIds]
  have htext : streamedText (before ++ [d]) = streamedText before ++ d.text := by
    simp [streamedText]
  obtain ⟨st', hfollow, htracks⟩ := follow_tracks h hd.ahead
  rw [hids, htext]
  unfold hideWith
  rw [h.active, hfollow]
  exact hideText_tracks htracks hd.no_hidden hd.aligned

/-- **A valid stream is tracked** to its end. -/
theorem tracks_of_valid {s : OutputTokenSplit} {deltas : List Delta} (h : ValidStream s deltas) :
    Tracks s (receivedIds deltas) (streamedText deltas) (stateAfter false s deltas) := by
  induction deltas using List.reverseRecOn with
  | nil => exact ⟨rfl, rfl, rfl, rfl, rfl⟩
  | append_singleton before d ih =>
    rw [stateAfter_append_singleton]
    exact (hideWith_tracks (ih h.of_append) (h before d [] rfl)).1

/-- `hide` is active throughout a valid stream. -/
theorem active_of_valid {s : OutputTokenSplit} {deltas : List Delta} (h : ValidStream s deltas) :
    (stateAfter true s deltas).active = true := by
  have hactive := (tracks_of_valid h).active
  obtain heq | ⟨-, hall⟩ := stateAfter_dropped s deltas
  · rw [heq]
    exact hactive
  · rw [hall] at hactive
    exact absurd hactive Bool.false_ne_true

/-- **Hiding is exact.** In every valid stream, at every delta, `hide` is active
before and after it, keeps the length, and hides what it may and must. Whatever
the stream, dropping the spans that are fully streamed changes no answer. -/
theorem hide_exact (s : OutputTokenSplit) :
    (∀ deltas, ValidStream s deltas → ∀ before d after, deltas = before ++ d :: after →
      (stateAfter true s before).active = true
        ∧ ((stateAfter true s before).hide s d.text d.ids).1.active = true
        ∧ HidesExactly (spans 0 (pieces s (receivedIds (before ++ [d]))))
            (streamedText before).length d.text ((stateAfter true s before).hide s d.text d.ids).2)
      ∧ ∀ before d, answer true s before d = answer false s before d := by
  refine ⟨fun deltas h before d after hsplit => ?_, answer_dropped s⟩
  subst hsplit
  -- the stream up to this delta is valid too
  have hnext : ValidStream s (before ++ [d]) := by
    have hassoc : before ++ d :: after = (before ++ [d]) ++ after := by rw [List.append_assoc]; rfl
    rw [hassoc] at h
    exact h.of_append
  -- it was active, it stays active, and it hides what it must
  refine ⟨active_of_valid h.of_append, ?_, ?_⟩
  · have := active_of_valid hnext
    rwa [stateAfter_append_singleton] at this
  · show HidesExactly _ _ _ (answer true s before d)
    rw [answer_dropped]
    exact (hideWith_tracks (tracks_of_valid h.of_append) (h before d after rfl)).2

/-- A quote and a real token in one delta. -/
theorem hide_exact_quoted :
    (OutputTokenStream.init.hide dsmlSplit "｜DSML｜｜DSML｜".toList quotedIds).1.active = true
      ∧ HidesExactly [(6, "｜DSML｜".toList)] 0 "｜DSML｜｜DSML｜".toList
          (OutputTokenStream.init.hide dsmlSplit "｜DSML｜｜DSML｜".toList quotedIds).2 := by
  have hvalid : ValidStream dsmlSplit [⟨"｜DSML｜｜DSML｜".toList, quotedIds⟩] := by
    intro before d after hsplit
    obtain ⟨rfl, h⟩ | ⟨rest, -, h⟩ := List.cons_eq_append_iff.mp hsplit
    · obtain ⟨rfl, rfl⟩ := List.cons.inj h
      exact ⟨by decide, by decide, fun _ _ _ _ _ => Nat.zero_le _⟩
    · exact absurd h.symm (List.append_ne_nil_of_right_ne_nil _ (List.cons_ne_nil _ _))
  exact ((hide_exact dsmlSplit).1 _ hvalid [] _ [] rfl).2

end OutputSplit
end Dsv41Overlay
