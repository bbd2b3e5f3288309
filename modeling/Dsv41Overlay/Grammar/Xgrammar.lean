import Dsv41Overlay.Lib.System
import Dsv41Overlay.Lib.TokenMatcher

/-!
# The XGrammar backend under termination

`XgrammarGrammar` wraps a matcher and keeps two fields beside it: the number of
tokens processed and a cached termination flag. The patched methods
(`patch_xgrammar_termination.py`) are `acceptTokens`, `validateTokens` and
`reset`; `rollback` is the backend's own. The patched manager loop advances the
grammar over a window of drafts and counts the advancements, so that they can be
rolled back afterwards.

`Inv` is what holds between calls: the cached flag is the matcher's, the counter
is the number of tokens the matcher holds, and the matcher was never offered a
token after termination. The last clause is the point of the patch, so the model
counts such calls, as the fixture matcher of the tests does
(`callsAfterTermination`).

* `reachable_inv`: `Inv` holds after every sequence of calls.
* `validateTokens_eq`, `validateTokens_isLongest`: validation changes nothing
  and returns the longest prefix the matcher accepts.
* `rollback_advanceDrafts`: whatever a window of drafts did, also when it
  raised, rolling back the counted advancements restores the grammar.
-/

namespace Dsv41Overlay.Grammar

variable {State Token : Type*}

/-- The backend grammar object. `callsAfterTermination` is not a field of the
source: it counts the tokens offered to a terminated matcher. -/
@[ext]
structure XgrammarGrammar (State : Type*) where
  matcher : State
  numProcessedTokens : ℤ
  isTerminated : Bool
  callsAfterTermination : ℕ
deriving DecidableEq, Repr

/-- The grammar with its matcher moved to `s`. -/
def XgrammarGrammar.withMatcher (g : XgrammarGrammar State) (s : State) : XgrammarGrammar State :=
  { g with matcher := s }

@[simp] theorem XgrammarGrammar.withMatcher_withMatcher (g : XgrammarGrammar State)
    (s s' : State) : (g.withMatcher s).withMatcher s' = g.withMatcher s' := rfl

theorem XgrammarGrammar.withMatcher_self (g : XgrammarGrammar State) :
    g.withMatcher g.matcher = g := rfl

variable (m : TokenMatcher State Token)

/-- A grammar around a fresh matcher. -/
def XgrammarGrammar.fresh : XgrammarGrammar State where
  matcher := m.fresh
  numProcessedTokens := 0
  isTerminated := false
  callsAfterTermination := 0

/-! ### The methods -/

/-- `self.matcher.accept_token(token)`. -/
def offer (t : Token) (g : XgrammarGrammar State) : Bool × XgrammarGrammar State :=
  ((m.acceptToken t g.matcher).1,
    { g with
      matcher := (m.acceptToken t g.matcher).2
      callsAfterTermination :=
        if m.isTerminated g.matcher then g.callsAfterTermination + 1
        else g.callsAfterTermination })

/-- The bookkeeping after an accepted token. -/
def advance (g : XgrammarGrammar State) : XgrammarGrammar State :=
  { g with
    numProcessedTokens := g.numProcessedTokens + 1
    isTerminated := m.isTerminated g.matcher }

/-- The loop of `accept_tokens`. -/
def acceptLoop : List Token → XgrammarGrammar State → Bool × XgrammarGrammar State
  | [], g => (true, g)
  | t :: ts, g =>
    if (offer m t g).1 then
      -- tokens after the terminating one are ignored
      if (advance m (offer m t g).2).isTerminated then (true, advance m (offer m t g).2)
      else acceptLoop ts (advance m (offer m t g).2)
    else (false, (offer m t g).2)

/-- `accept_tokens`. -/
def acceptTokens (ts : List Token) (g : XgrammarGrammar State) : Bool × XgrammarGrammar State :=
  if g.isTerminated then (true, g) else acceptLoop m ts g

/-- The loop of `validate_tokens`: the accepted tokens. -/
def validateLoop : List Token → XgrammarGrammar State → List Token × XgrammarGrammar State
  | [], g => ([], g)
  | t :: ts, g =>
    if (offer m t g).1 then
      if m.isTerminated (offer m t g).2.matcher then ([t], (offer m t g).2)
      else (t :: (validateLoop ts (offer m t g).2).1, (validateLoop ts (offer m t g).2).2)
    else ([], (offer m t g).2)

/-- `validate_tokens`. -/
def validateTokens (ts : List Token) (g : XgrammarGrammar State) :
    List Token × XgrammarGrammar State :=
  if g.isTerminated then ([], g)
  else
    let r := validateLoop m ts g
    if 0 < r.1.length then
      (r.1, r.2.withMatcher (m.rollback r.1.length r.2.matcher))
    else r

/-- `rollback`. -/
def rollback (n : ℕ) (g : XgrammarGrammar State) : XgrammarGrammar State :=
  { g with
    matcher := m.rollback n g.matcher
    numProcessedTokens := g.numProcessedTokens - n
    isTerminated := m.isTerminated (m.rollback n g.matcher) }

/-- `reset`. -/
def reset (g : XgrammarGrammar State) : XgrammarGrammar State :=
  { g with
    matcher := m.reset g.matcher
    numProcessedTokens := 0
    isTerminated := false }

/-! ### The manager's draft window -/

/-- One draft token of the window, with the two switches the manager's loop has
computed for it. -/
structure Draft (Token : Type*) where
  token : Token
  advanceGrammar : Bool
  postReasoningEndInWindow : Bool
deriving DecidableEq, Repr

/-- The advance of one draft: whether the grammar took the token. -/
def advanceDraft (d : Draft Token) (g : XgrammarGrammar State) : Bool × XgrammarGrammar State :=
  if d.postReasoningEndInWindow then
    let v := validateTokens m [d.token] g
    if v.1.isEmpty then (false, v.2) else acceptTokens m [d.token] v.2
  else acceptTokens m [d.token] g

/-- The manager's loop over a window. The first component is the token of the
`AssertionError`, if one is raised; the last is `state_advancements`. -/
def advanceDrafts : List (Draft Token) → XgrammarGrammar State → ℕ →
    Option Token × XgrammarGrammar State × ℕ
  | [], g, n => (none, g, n)
  | d :: ds, g, n =>
    if d.advanceGrammar && !g.isTerminated then
      if (advanceDraft m d g).1 then advanceDrafts ds (advanceDraft m d g).2 (n + 1)
      else if d.postReasoningEndInWindow then advanceDrafts ds (advanceDraft m d g).2 n
      else (some d.token, (advanceDraft m d g).2, n)
    else advanceDrafts ds g n

/-! ### Between calls -/

/-- What holds between calls. -/
structure Inv (g : XgrammarGrammar State) : Prop where
  /-- The cached flag is the matcher's. -/
  flag : g.isTerminated = m.isTerminated g.matcher
  /-- The counter counts the tokens held. -/
  count : g.numProcessedTokens = (m.held g.matcher).length
  /-- A terminated matcher was never offered a token. -/
  quiet : g.callsAfterTermination = 0
  /-- The matcher is where its held tokens lead. -/
  sound : m.Sound g.matcher

variable {m}

theorem Inv.fresh : Inv m (XgrammarGrammar.fresh m) where
  flag := m.fresh_open.symm
  count := by
    show (0 : ℤ) = (m.held m.fresh).length
    rw [m.held_fresh]
    rfl
  quiet := rfl
  sound := TokenMatcher.Sound.fresh

/-- Two grammars between calls are equal once their matchers are. -/
theorem Inv.ext {g g' : XgrammarGrammar State} (hg : Inv m g) (hg' : Inv m g')
    (h : g.matcher = g'.matcher) : g = g' := by
  apply XgrammarGrammar.ext h
  · rw [hg.count, hg'.count, h]
  · rw [hg.flag, hg'.flag, h]
  · rw [hg.quiet, hg'.quiet]

section Calls

variable {g : XgrammarGrammar State} (hg : Inv m g)
include hg

/-- The matcher of an open grammar is offered a token in the open. -/
theorem Inv.offer_quiet (hopen : g.isTerminated = false) (t : Token) :
    (offer m t g).2.callsAfterTermination = 0 := by
  have hm : m.isTerminated g.matcher = false := by rw [← hg.flag, hopen]
  show (if m.isTerminated g.matcher then g.callsAfterTermination + 1
    else g.callsAfterTermination) = 0
  rw [hm, hg.quiet]
  rfl

/-- A rejected token leaves an open grammar as it is. -/
theorem Inv.offer_rejected (hopen : g.isTerminated = false) {t : Token}
    (h : (offer m t g).1 = false) : (offer m t g).2 = g := by
  apply XgrammarGrammar.ext
  · exact m.rejected t g.matcher h
  · rfl
  · rfl
  · rw [hg.offer_quiet hopen, hg.quiet]

/-- An accepted token and its bookkeeping keep the invariant. -/
theorem Inv.advance (hopen : g.isTerminated = false) {t : Token}
    (h : (offer m t g).1 = true) : Inv m (advance m (offer m t g).2) where
  flag := rfl
  count := by
    show g.numProcessedTokens + 1 = (m.held (m.acceptToken t g.matcher).2).length
    rw [m.held_accepted t g.matcher h, hg.count, List.length_append]
    rfl
  quiet := hg.offer_quiet hopen t
  sound := by
    have hfeed : m.feed [t] g.matcher = some (m.acceptToken t g.matcher).2 := by
      rw [TokenMatcherOps.feed_cons]
      exact if_pos h
    exact hg.sound.feed hfeed

/-- `rollback` by at most the processed tokens. -/
theorem Inv.rollback {n : ℕ} (hn : (n : ℤ) ≤ g.numProcessedTokens) :
    Inv m (rollback m n g) := by
  have hle : n ≤ (m.held g.matcher).length := by
    rw [hg.count] at hn
    exact Int.ofNat_le.mp hn
  obtain ⟨hs, hlen⟩ := hg.sound.rollback hle
  refine ⟨rfl, ?_, hg.quiet, hs⟩
  show g.numProcessedTokens - n = (m.held (m.rollback n g.matcher)).length
  rw [hg.count]
  omega

theorem Inv.reset : Inv m (reset m g) where
  flag := by
    show false = m.isTerminated (m.reset g.matcher)
    rw [m.reset_eq, m.fresh_open]
  count := by
    show (0 : ℤ) = (m.held (m.reset g.matcher)).length
    rw [m.reset_eq, m.held_fresh]
    rfl
  quiet := hg.quiet
  sound := by
    show m.Sound (m.reset g.matcher)
    rw [m.reset_eq]
    exact TokenMatcher.Sound.fresh

end Calls

/-! ### Accepting -/

theorem acceptLoop_cons (t : Token) (ts : List Token) (g : XgrammarGrammar State) :
    acceptLoop m (t :: ts) g =
      if (offer m t g).1 then
        if (advance m (offer m t g).2).isTerminated then (true, advance m (offer m t g).2)
        else acceptLoop m ts (advance m (offer m t g).2)
      else (false, (offer m t g).2) := rfl

/-- One token at a time, the loop keeps the invariant; it also does so when it
stops at a rejected token. -/
theorem acceptLoop_inv (ts : List Token) {g : XgrammarGrammar State} (hg : Inv m g)
    (hopen : g.isTerminated = false) : Inv m (acceptLoop m ts g).2 := by
  -- the loop stops at the first token that is rejected
  induction ts generalizing g with
  | nil => exact hg
  | cons t ts ih =>
    rw [acceptLoop_cons]
    split
    · next hok =>
      have ha := hg.advance hopen hok
      -- a terminated matcher ends the loop
      split
      · exact ha
      · next hf => exact ih ha (Bool.eq_false_iff.mpr hf)
    · next hrej =>
      rw [hg.offer_rejected hopen (Bool.eq_false_iff.mpr hrej)]
      exact hg

theorem acceptTokens_inv (ts : List Token) {g : XgrammarGrammar State} (hg : Inv m g) :
    Inv m (acceptTokens m ts g).2 := by
  unfold acceptTokens
  split
  · exact hg
  · next hf => exact acceptLoop_inv ts hg (Bool.eq_false_iff.mpr hf)

/-- Tokens that the matcher accepts are accepted, and the matcher ends where
they lead. -/
theorem acceptLoop_feed {ts : List Token} {g : XgrammarGrammar State} (hg : Inv m g)
    (hopen : g.isTerminated = false) {s : State} (h : m.feed ts g.matcher = some s) :
    (acceptLoop m ts g).1 = true ∧ (acceptLoop m ts g).2.matcher = s := by
  induction ts generalizing g with
  | nil =>
    cases h
    exact ⟨rfl, rfl⟩
  | cons t ts ih =>
    rw [TokenMatcherOps.feed_cons] at h
    split at h
    · next hok =>
      have ha : Inv m (advance m (offer m t g).2) := hg.advance hopen hok
      rw [acceptLoop_cons, if_pos (show (offer m t g).1 = true from hok)]
      split
      · next hterm =>
        -- no token follows the terminating one
        have hts : ts = [] := by
          apply m.eq_nil_of_terminated (s := (m.acceptToken t g.matcher).2)
          · rw [← hterm]
            exact ha.flag.symm
          · rw [h]
            rfl
        subst hts
        cases h
        exact ⟨rfl, rfl⟩
      · next hf => exact ih ha (Bool.eq_false_iff.mpr hf) h
    · cases h

/-! ### Validating -/

theorem validateLoop_cons (t : Token) (ts : List Token) (g : XgrammarGrammar State) :
    validateLoop m (t :: ts) g =
      if (offer m t g).1 then
        if m.isTerminated (offer m t g).2.matcher then ([t], (offer m t g).2)
        else (t :: (validateLoop m ts (offer m t g).2).1, (validateLoop m ts (offer m t g).2).2)
      else ([], (offer m t g).2) := rfl

/-- What the validation loop leaves behind, from an open matcher: the matcher
has been fed the returned tokens, which are the longest prefix it accepts, and
nothing else has changed. -/
structure Validated (m : TokenMatcher State Token) (ts : List Token) (g : XgrammarGrammar State)
    (r : List Token × XgrammarGrammar State) : Prop where
  fed : m.feed r.1 g.matcher = some r.2.matcher
  longest : m.IsLongest g.matcher ts r.1
  frame : r.2.withMatcher g.matcher = g

/-- A rejected first token: nothing is accepted. -/
theorem isLongest_of_rejected {t : Token} {s : State} (h : (m.acceptToken t s).1 = false)
    (ts : List Token) : m.IsLongest s (t :: ts) [] where
  isPrefix := List.nil_prefix
  accepted := rfl
  longest q hq hacc := by
    cases q with
    | nil => exact List.prefix_refl _
    | cons u us =>
      obtain ⟨rfl, -⟩ := List.cons_prefix_cons.mp hq
      rw [TokenMatcherOps.feed_cons, h] at hacc
      cases hacc

/-- An accepted first token is in front of the longest prefix of the rest. -/
theorem isLongest_cons {t : Token} {s : State} (h : (m.acceptToken t s).1 = true)
    {ts p : List Token} (hp : m.IsLongest (m.acceptToken t s).2 ts p) :
    m.IsLongest s (t :: ts) (t :: p) where
  isPrefix := List.cons_prefix_cons.mpr ⟨rfl, hp.isPrefix⟩
  accepted := by
    rw [TokenMatcherOps.feed_cons, if_pos h]
    exact hp.accepted
  longest q hq hacc := by
    cases q with
    | nil => exact List.nil_prefix
    | cons u us =>
      obtain ⟨rfl, hus⟩ := List.cons_prefix_cons.mp hq
      rw [TokenMatcherOps.feed_cons, if_pos h] at hacc
      exact List.cons_prefix_cons.mpr ⟨rfl, hp.longest us hus hacc⟩

/-- **The validation loop**, from an open matcher. -/
theorem validateLoop_validated (ts : List Token) (g : XgrammarGrammar State)
    (hopen : m.isTerminated g.matcher = false) :
    Validated m ts g (validateLoop m ts g) := by
  induction ts generalizing g with
  | nil =>
    refine ⟨rfl, ⟨List.prefix_refl _, rfl, ?_⟩, rfl⟩
    intro q hq _
    exact hq
  | cons t ts ih =>
    -- a probe moves only the matcher
    have hframe : (offer m t g).2.withMatcher g.matcher = g := by
      simp [offer, hopen, XgrammarGrammar.withMatcher]
    rw [validateLoop_cons]
    split
    · next hok =>
      have hok' : (m.acceptToken t g.matcher).1 = true := hok
      -- the loop ends with the grammar, or goes on
      split
      · next hterm =>
        refine ⟨?_, ?_, hframe⟩
        · rw [TokenMatcherOps.feed_cons, if_pos hok']
          rfl
        · exact isLongest_cons hok' (m.isLongest_of_terminated hterm ts)
      · next hf =>
        have hv := ih (offer m t g).2 (Bool.eq_false_iff.mpr hf)
        refine ⟨?_, isLongest_cons hok' hv.longest, ?_⟩
        · rw [TokenMatcherOps.feed_cons, if_pos hok']
          exact hv.fed
        · calc (validateLoop m ts (offer m t g).2).2.withMatcher g.matcher
              = ((validateLoop m ts (offer m t g).2).2.withMatcher
                  (offer m t g).2.matcher).withMatcher g.matcher := rfl
            _ = (offer m t g).2.withMatcher g.matcher := by rw [hv.frame]
            _ = g := hframe
    · next hrej =>
      -- a rejected token ends the longest prefix
      have hrej' : (m.acceptToken t g.matcher).1 = false := Bool.eq_false_iff.mpr hrej
      refine ⟨?_, isLongest_of_rejected hrej' ts, hframe⟩
      show some g.matcher = some (m.acceptToken t g.matcher).2
      rw [m.rejected t g.matcher hrej']

/-- **Validation changes nothing**: neither the matcher nor a field. -/
theorem validateTokens_eq (ts : List Token) {g : XgrammarGrammar State} (hg : Inv m g) :
    (validateTokens m ts g).2 = g := by
  unfold validateTokens
  split
  · rfl
  · next hf =>
    have hopen : m.isTerminated g.matcher = false := by
      rw [← hg.flag]
      exact Bool.eq_false_iff.mpr hf
    have hv := validateLoop_validated ts g hopen
    dsimp only
    split
    · -- the rollback undoes the accepted tokens
      show (validateLoop m ts g).2.withMatcher
        (m.rollback (validateLoop m ts g).1.length (validateLoop m ts g).2.matcher) = g
      rw [m.rollback_feed _ _ _ hv.fed]
      exact hv.frame
    · next hlen =>
      -- nothing was accepted, so the matcher has not moved
      have hnil : (validateLoop m ts g).1 = [] := List.length_eq_zero_iff.mp (by omega)
      have hfed := hv.fed
      rw [hnil] at hfed
      have hm : g.matcher = (validateLoop m ts g).2.matcher := Option.some.inj hfed
      calc (validateLoop m ts g).2
          = (validateLoop m ts g).2.withMatcher g.matcher := by
            rw [hm, XgrammarGrammar.withMatcher_self]
        _ = g := hv.frame

/-- The tokens `validate_tokens` returns are those of its loop. -/
theorem validateTokens_fst {ts : List Token} {g : XgrammarGrammar State}
    (hopen : g.isTerminated = false) :
    (validateTokens m ts g).1 = (validateLoop m ts g).1 := by
  unfold validateTokens
  rw [hopen, if_neg Bool.false_ne_true]
  dsimp only
  split <;> rfl

/-- **Validation returns the longest prefix** the matcher accepts. -/
theorem validateTokens_isLongest (ts : List Token) {g : XgrammarGrammar State} (hg : Inv m g) :
    m.IsLongest g.matcher ts (validateTokens m ts g).1 := by
  cases hf : g.isTerminated with
  | true =>
    unfold validateTokens
    rw [hf]
    exact m.isLongest_of_terminated (hg.flag.symm.trans hf) ts
  | false =>
    rw [validateTokens_fst hf]
    exact (validateLoop_validated ts g (hg.flag.symm.trans hf)).longest

/-- Tokens that the matcher accepts are accepted, whether or not it has
terminated. -/
theorem acceptTokens_of_feed {ts : List Token} {g : XgrammarGrammar State} (hg : Inv m g)
    {s : State} (h : m.feed ts g.matcher = some s) :
    (acceptTokens m ts g).1 = true ∧ (acceptTokens m ts g).2.matcher = s := by
  unfold acceptTokens
  split
  -- a terminated matcher has no tokens left
  · next ht =>
    have hts : ts = [] := by
      apply m.eq_nil_of_terminated (hg.flag.symm.trans ht)
      rw [h]
      rfl
    subst hts
    cases h
    exact ⟨rfl, rfl⟩
  · next hf => exact acceptLoop_feed hg (Bool.eq_false_iff.mpr hf) h

/-- **Accepting what was validated succeeds.** -/
theorem acceptTokens_validateTokens (ts : List Token) {g : XgrammarGrammar State}
    (hg : Inv m g) :
    (acceptTokens m (validateTokens m ts g).1 (validateTokens m ts g).2).1 = true := by
  rw [validateTokens_eq ts hg]
  obtain ⟨s, hs⟩ := Option.isSome_iff_exists.mp (validateTokens_isLongest ts hg).accepted
  exact (acceptTokens_of_feed hg hs).1

/-! ### The draft window -/

/-- A single offered token is fed, or nothing has happened. -/
def Fed (m : TokenMatcher State Token) (t : Token) (g : XgrammarGrammar State)
    (r : Bool × XgrammarGrammar State) : Prop :=
  (r.1 = true ∧ Inv m r.2 ∧ m.feed [t] g.matcher = some r.2.matcher) ∨ r = (false, g)

theorem acceptTokens_fed (t : Token) {g : XgrammarGrammar State} (hg : Inv m g)
    (hopen : g.isTerminated = false) : Fed m t g (acceptTokens m [t] g) := by
  cases hok : (m.acceptToken t g.matcher).1 with
  | true =>
    have hfeed : m.feed [t] g.matcher = some (m.acceptToken t g.matcher).2 := by
      rw [TokenMatcherOps.feed_cons, if_pos hok]
      rfl
    -- one token that the matcher takes
    obtain ⟨h₁, h₂⟩ := acceptTokens_of_feed hg hfeed
    refine Or.inl ⟨h₁, acceptTokens_inv [t] hg, ?_⟩
    rw [h₂]
    exact hfeed
  | false =>
    -- one that it does not take changes nothing
    have hrej : (offer m t g).1 = false := hok
    right
    unfold acceptTokens
    rw [hopen, if_neg Bool.false_ne_true, acceptLoop_cons, hrej, if_neg Bool.false_ne_true,
      hg.offer_rejected hopen hrej]

/-- **One draft.** Either branch feeds the token or leaves the grammar alone. -/
theorem advanceDraft_fed (d : Draft Token) {g : XgrammarGrammar State} (hg : Inv m g)
    (hopen : g.isTerminated = false) : Fed m d.token g (advanceDraft m d g) := by
  have hacc := acceptTokens_fed d.token hg hopen
  unfold advanceDraft
  -- a draft behind the end of reasoning is validated first
  split
  · show Fed m d.token g (if (validateTokens m [d.token] g).1.isEmpty
      then (false, (validateTokens m [d.token] g).2)
      else acceptTokens m [d.token] (validateTokens m [d.token] g).2)
    rw [validateTokens_eq [d.token] hg]
    split
    · exact Or.inr rfl
    · exact hacc
  · exact hacc

/-- A window feeds as many tokens as it counts, also when it raises. -/
theorem advanceDrafts_feed (ds : List (Draft Token)) {g : XgrammarGrammar State} (hg : Inv m g)
    (n : ℕ) :
    Inv m (advanceDrafts m ds g n).2.1 ∧
      ∃ ts, m.feed ts g.matcher = some (advanceDrafts m ds g n).2.1.matcher ∧
        (advanceDrafts m ds g n).2.2 = n + ts.length := by
  induction ds generalizing g n with
  | nil => exact ⟨hg, [], rfl, rfl⟩
  | cons d ds ih =>
    unfold advanceDrafts
    -- a draft that advances the grammar, or one that is passed over
    split
    · next hadv =>
      have hopen : g.isTerminated = false := by
        rw [Bool.and_eq_true, Bool.not_eq_true'] at hadv
        exact hadv.2
      rcases advanceDraft_fed d hg hopen with ⟨hacc, hinv, hfed⟩ | hrej
      · rw [if_pos hacc]
        obtain ⟨h₁, ts, hts, hlen⟩ := ih hinv (n + 1)
        refine ⟨h₁, d.token :: ts, ?_, ?_⟩
        · rw [← List.singleton_append, TokenMatcherOps.feed_append, hfed]
          exact hts
        · rw [hlen, List.length_cons]
          omega
      · rw [hrej, if_neg Bool.false_ne_true]
        -- behind the end of reasoning a rejected draft is passed over, elsewhere it raises
        split
        · exact ih hg n
        · exact ⟨hg, [], rfl, rfl⟩
    · exact ih hg n

/-- **A window is undone** by rolling back its counted advancements. -/
theorem rollback_advanceDrafts (ds : List (Draft Token)) {g : XgrammarGrammar State}
    (hg : Inv m g) :
    rollback m (advanceDrafts m ds g 0).2.2 (advanceDrafts m ds g 0).2.1 = g := by
  obtain ⟨hinv, ts, hfeed, hlen⟩ := advanceDrafts_feed ds hg 0
  have hback : m.rollback (advanceDrafts m ds g 0).2.2 (advanceDrafts m ds g 0).2.1.matcher =
      g.matcher := by
    rw [hlen, Nat.zero_add]
    exact m.rollback_feed ts _ _ hfeed
  have hcount : ((advanceDrafts m ds g 0).2.2 : ℤ) ≤
      (advanceDrafts m ds g 0).2.1.numProcessedTokens := by
    rw [hinv.count, m.held_feed hfeed, hlen, List.length_append]
    omega
  exact (hinv.rollback hcount).ext hg hback

/-! ### Sequences of calls -/

/-- A call of the backend's interface. -/
inductive Call (Token : Type*)
  | acceptTokens (ts : List Token)
  | validateTokens (ts : List Token)
  | rollback (n : ℕ)
  | reset
  deriving DecidableEq, Repr

/-- What a call leaves behind. -/
def Call.run (m : TokenMatcher State Token) :
    Call Token → XgrammarGrammar State → XgrammarGrammar State
  | .acceptTokens ts, g => (Grammar.acceptTokens m ts g).2
  | .validateTokens ts, g => (Grammar.validateTokens m ts g).2
  | .rollback n, g => Grammar.rollback m n g
  | .reset, g => Grammar.reset m g

/-- A caller takes back at most the processed tokens. -/
def Call.Allowed (g : XgrammarGrammar State) : Call Token → Prop
  | .rollback n => (n : ℤ) ≤ g.numProcessedTokens
  | _ => True

/-- The backend under its callers. -/
def backend (m : TokenMatcher State Token) : System (XgrammarGrammar State) (Call Token) where
  init g := g = XgrammarGrammar.fresh m
  step g c g' := c.Allowed g ∧ g' = c.run m g

theorem Call.run_inv (c : Call Token) {g : XgrammarGrammar State} (hg : Inv m g)
    (hc : c.Allowed g) : Inv m (c.run m g) := by
  cases c with
  | acceptTokens ts => exact acceptTokens_inv ts hg
  | validateTokens ts =>
    show Inv m (Grammar.validateTokens m ts g).2
    rw [validateTokens_eq ts hg]
    exact hg
  | rollback n => exact hg.rollback hc
  | reset => exact hg.reset

/-- **The invariant of every sequence of calls.** -/
theorem reachable_inv {g : XgrammarGrammar State} (h : (backend m).Reachable g) : Inv m g := by
  apply System.Reachable.invariant _ _ h
  · rintro g rfl
    exact Inv.fresh
  · rintro g c g' hg ⟨hc, rfl⟩
    exact c.run_inv hg hc

/-- **The bookkeeping stays in step with the matcher.** After any sequence of
calls the cached flag is the matcher's, the counter is the number of tokens it
holds and it was never offered a token after termination. Validation then
returns the longest prefix the matcher accepts and changes nothing, accepting
the validated tokens succeeds, and a window of drafts is undone by rolling back
its counted advancements. -/
theorem backend_in_step (m : TokenMatcher State Token) (g : XgrammarGrammar State)
    (h : (backend m).Reachable g) :
    (g.isTerminated = m.isTerminated g.matcher ∧
      g.numProcessedTokens = (m.held g.matcher).length ∧ g.callsAfterTermination = 0) ∧
    (∀ ts, m.IsLongest g.matcher ts (validateTokens m ts g).1 ∧ (validateTokens m ts g).2 = g ∧
      (acceptTokens m (validateTokens m ts g).1 (validateTokens m ts g).2).1 = true) ∧
    ∀ ds, rollback m (advanceDrafts m ds g 0).2.2 (advanceDrafts m ds g 0).2.1 = g := by
  have hg := reachable_inv h
  refine ⟨⟨hg.flag, hg.count, hg.quiet⟩, ?_, ?_⟩
  · intro ts
    exact ⟨validateTokens_isLongest ts hg, validateTokens_eq ts hg,
      acceptTokens_validateTokens ts hg⟩
  · intro ds
    exact rollback_advanceDrafts ds hg

/-- The matcher of the tests: token 99 terminates, token -1 is rejected. -/
def fakeMatcher : TokenMatcher (List ℤ) ℤ :=
  TokenMatcher.ofHistory (fun _ t => t != -1) (fun s => s.getLast? == some 99) rfl

/-- The backend of the tests behind its first token. -/
def fakeGrammar : XgrammarGrammar (List ℤ) :=
  (acceptTokens fakeMatcher [7] (XgrammarGrammar.fresh fakeMatcher)).2

/-- A window in which a draft behind the end of the reasoning is rejected and the next one
terminates the grammar. -/
def fakeWindow : List (Draft ℤ) :=
  [⟨8, true, false⟩, ⟨-1, true, true⟩, ⟨99, true, false⟩, ⟨5, true, false⟩]

/-- Two of the four drafts advance the grammar, and two advancements are rolled back. -/
theorem backend_in_step_fake :
    (backend fakeMatcher).Reachable fakeGrammar ∧
      (advanceDrafts fakeMatcher fakeWindow fakeGrammar 0).2.2 = 2 ∧
      rollback fakeMatcher 2 (advanceDrafts fakeMatcher fakeWindow fakeGrammar 0).2.1
        = fakeGrammar := by
  have hr : (backend fakeMatcher).Reachable fakeGrammar :=
    System.ReachableVia.step (l := .acceptTokens [7]) (.init rfl) trivial ⟨trivial, rfl⟩
  have hcount : (advanceDrafts fakeMatcher fakeWindow fakeGrammar 0).2.2 = 2 := by decide
  have hundo := (backend_in_step fakeMatcher fakeGrammar hr).2.2 fakeWindow
  rw [hcount] at hundo
  exact ⟨hr, hcount, hundo⟩

end Dsv41Overlay.Grammar
