import Mathlib.Data.List.Infix

/-!
# Incremental matchers

A matcher reads a text token by token. It may reject a token, in which case it
stays where it was, and it may terminate, after which it rejects everything. The
last accepted tokens can be taken back.

`TokenMatcher` states these rules for an arbitrary implementation: `State` is
whatever the implementation keeps, `held` the tokens it has accepted and not
taken back. Every automaton on histories is such a matcher
(`TokenMatcher.ofHistory`).

Two facts carry the users of a matcher: `rollback` leads from a state to the one
that held a shorter history (`Sound.rollback`), and feeding stops exactly at the
longest prefix the matcher accepts (`IsLongest`).
-/

namespace Dsv41Overlay

/-- What a matcher offers its caller. -/
structure TokenMatcherOps (State Token : Type*) where
  /-- The matcher before its first token. -/
  fresh : State
  /-- Offers a token; the flag tells whether it was accepted. -/
  acceptToken : Token → State → Bool × State
  isTerminated : State → Bool
  rollback : ℕ → State → State
  reset : State → State

namespace TokenMatcherOps

variable {State Token : Type*}

/-- Offers the tokens in turn; `none` once one is rejected. -/
def feed (m : TokenMatcherOps State Token) : List Token → State → Option State
  | [], s => some s
  | t :: ts, s => if (m.acceptToken t s).1 then feed m ts (m.acceptToken t s).2 else none

@[simp] theorem feed_nil (m : TokenMatcherOps State Token) (s : State) : m.feed [] s = some s := rfl

theorem feed_cons (m : TokenMatcherOps State Token) (t : Token) (ts : List Token) (s : State) :
    m.feed (t :: ts) s =
      if (m.acceptToken t s).1 then m.feed ts (m.acceptToken t s).2 else none := rfl

theorem feed_append (m : TokenMatcherOps State Token) (ts us : List Token) (s : State) :
    m.feed (ts ++ us) s = (m.feed ts s).bind (m.feed us) := by
  induction ts generalizing s with
  | nil => rfl
  | cons t ts ih =>
    rw [List.cons_append, feed_cons, feed_cons]
    split
    · exact ih _
    · rfl

/-- `p` is the longest prefix of `ts` that the matcher accepts in `s`. -/
structure IsLongest (m : TokenMatcherOps State Token) (s : State) (ts p : List Token) : Prop where
  /-- `p` is a prefix of the offered tokens. -/
  isPrefix : p <+: ts
  /-- The matcher accepts `p`. -/
  accepted : (m.feed p s).isSome
  /-- The matcher accepts no longer prefix. -/
  longest : ∀ q, q <+: ts → (m.feed q s).isSome → q <+: p

end TokenMatcherOps

/-- An implementation that keeps the rules. -/
structure TokenMatcher (State Token : Type*) extends TokenMatcherOps State Token where
  /-- The tokens accepted and not taken back. -/
  held : State → List Token
  held_fresh : held fresh = []
  held_accepted : ∀ t s, (acceptToken t s).1 = true → held (acceptToken t s).2 = held s ++ [t]
  /-- A rejected token leaves the matcher where it was. -/
  rejected : ∀ t s, (acceptToken t s).1 = false → (acceptToken t s).2 = s
  /-- Nothing is accepted after termination. -/
  terminated_rejects : ∀ t s, isTerminated s = true → (acceptToken t s).1 = false
  /-- Taking back what was just accepted leads back. -/
  rollback_feed : ∀ ts s s', toTokenMatcherOps.feed ts s = some s' → rollback ts.length s' = s
  reset_eq : ∀ s, reset s = fresh
  fresh_open : isTerminated fresh = false

namespace TokenMatcher

variable {State Token : Type*} (m : TokenMatcher State Token)

theorem held_feed {ts : List Token} {s s' : State} (h : m.feed ts s = some s') :
    m.held s' = m.held s ++ ts := by
  induction ts generalizing s with
  | nil =>
    cases h
    rw [List.append_nil]
  | cons t ts ih =>
    rw [TokenMatcherOps.feed_cons] at h
    split at h
    · next hok =>
      rw [ih h, m.held_accepted t s hok, List.append_assoc, List.singleton_append]
    · cases h

/-- A terminated matcher accepts the empty list only. -/
theorem eq_nil_of_terminated {ts : List Token} {s : State} (ht : m.isTerminated s = true)
    (h : (m.feed ts s).isSome) : ts = [] := by
  cases ts with
  | nil => rfl
  | cons t ts =>
    rw [TokenMatcherOps.feed_cons, m.terminated_rejects t s ht] at h
    cases h

/-- On a terminated matcher the longest accepted prefix is empty. -/
theorem isLongest_of_terminated {s : State} (ht : m.isTerminated s = true) (ts : List Token) :
    m.IsLongest s ts [] where
  isPrefix := List.nil_prefix
  accepted := rfl
  longest q _ hq := by
    rw [m.eq_nil_of_terminated ht hq]

/-! ### Sound states -/

/-- The state is the one its held tokens lead to. -/
def Sound (s : State) : Prop := m.feed (m.held s) m.fresh = some s

variable {m}

theorem Sound.fresh : m.Sound m.fresh := by
  unfold Sound
  rw [m.held_fresh]
  rfl

theorem Sound.feed {s s' : State} (hs : m.Sound s) {ts : List Token}
    (h : m.feed ts s = some s') : m.Sound s' := by
  show m.feed (m.held s') m.fresh = some s'
  rw [m.held_feed h, TokenMatcherOps.feed_append, hs]
  exact h

/-- The state a sound one was in `n` tokens ago. -/
theorem Sound.exists_feed {s : State} (hs : m.Sound s) {n : ℕ} (hn : n ≤ (m.held s).length) :
    ∃ s₀ ts, m.Sound s₀ ∧ m.feed ts s₀ = some s ∧ ts.length = n := by
  have hsplit := List.take_append_drop ((m.held s).length - n) (m.held s)
  have hfeed : m.feed (m.held s) m.fresh = some s := hs
  rw [← hsplit, TokenMatcherOps.feed_append] at hfeed
  obtain ⟨s₀, h₀, h₁⟩ := Option.bind_eq_some_iff.mp hfeed
  refine ⟨s₀, (m.held s).drop ((m.held s).length - n), Sound.fresh.feed h₀, h₁, ?_⟩
  rw [List.length_drop]
  omega

/-- **Rolling back a sound state** leads to a sound state that holds `n` tokens
fewer. -/
theorem Sound.rollback {s : State} (hs : m.Sound s) {n : ℕ} (hn : n ≤ (m.held s).length) :
    m.Sound (m.rollback n s) ∧ (m.held (m.rollback n s)).length + n = (m.held s).length := by
  obtain ⟨s₀, ts, h₀, hfeed, rfl⟩ := hs.exists_feed hn
  rw [m.rollback_feed ts s₀ s hfeed]
  refine ⟨h₀, ?_⟩
  rw [m.held_feed hfeed, List.length_append]

end TokenMatcher

/-! ### Automata on histories -/

section OfHistory

variable {Token : Type*} (accepts : List Token → Token → Bool) (terminated : List Token → Bool)

/-- The operations of an automaton that reads histories: `accepts` tells which
token may follow, `terminated` where the text ends for good. -/
def historyOps : TokenMatcherOps (List Token) Token where
  fresh := []
  acceptToken t s :=
    if terminated s then (false, s) else if accepts s t then (true, s ++ [t]) else (false, s)
  isTerminated := terminated
  rollback n s := s.take (s.length - n)
  reset _ := []

variable {accepts terminated} {t : Token} {s s' : List Token}

theorem historyOps_acceptToken : (historyOps accepts terminated).acceptToken t s =
    if terminated s then (false, s) else if accepts s t then (true, s ++ [t]) else (false, s) := rfl

theorem historyOps_accepted (h : ((historyOps accepts terminated).acceptToken t s).1 = true) :
    ((historyOps accepts terminated).acceptToken t s).2 = s ++ [t] := by
  rw [historyOps_acceptToken] at h ⊢
  split_ifs at h ⊢
  rfl

theorem historyOps_rejected (h : ((historyOps accepts terminated).acceptToken t s).1 = false) :
    ((historyOps accepts terminated).acceptToken t s).2 = s := by
  rw [historyOps_acceptToken] at h ⊢
  split_ifs at h ⊢ <;> rfl

theorem historyOps_terminated (h : terminated s = true) :
    ((historyOps accepts terminated).acceptToken t s).1 = false := by
  rw [historyOps_acceptToken, if_pos h]

theorem historyOps_feed {ts : List Token}
    (h : (historyOps accepts terminated).feed ts s = some s') : s' = s ++ ts := by
  induction ts generalizing s with
  | nil =>
    cases h
    rw [List.append_nil]
  | cons t ts ih =>
    rw [TokenMatcherOps.feed_cons] at h
    split at h
    · next hok =>
      rw [ih h, historyOps_accepted hok, List.append_assoc, List.singleton_append]
    · cases h

theorem historyOps_rollback {ts : List Token}
    (h : (historyOps accepts terminated).feed ts s = some s') :
    (historyOps accepts terminated).rollback ts.length s' = s := by
  rw [historyOps_feed h]
  show (s ++ ts).take ((s ++ ts).length - ts.length) = s
  rw [List.length_append, Nat.add_sub_cancel, List.take_left]

/-- The matcher of an automaton that reads histories. -/
def TokenMatcher.ofHistory (accepts : List Token → Token → Bool) (terminated : List Token → Bool)
    (hopen : terminated [] = false) : TokenMatcher (List Token) Token where
  toTokenMatcherOps := historyOps accepts terminated
  held s := s
  held_fresh := rfl
  held_accepted _ _ := historyOps_accepted
  rejected _ _ := historyOps_rejected
  terminated_rejects _ _ := historyOps_terminated
  rollback_feed _ _ _ := historyOps_rollback
  reset_eq _ := rfl
  fresh_open := hopen

end OfHistory

end Dsv41Overlay
