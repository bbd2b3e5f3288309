import Dsv41Overlay.Lib.Lines

/-!
# Backporting function bodies

`patch_xgrammar_termination.py` replaces function bodies by those of a later vLLM, in
two files. Both of its functions `prepare_backend` and `prepare_manager` count the old
and the upstream bodies and the mark, let a text pass that is done, and verify by the
same counts what they have replaced (`Backport.prepare`).

Whatever passes is verified: every upstream body stands in it once, and no old one does
(`Backport.prepare_spec`). It then passes again as it is (`Backport.prepare_again`).
-/

namespace Dsv41Overlay.Patching

/-- A body of the pinned source and the upstream one. -/
structure Body where
  old : List String
  upstream : List String
  old_nonempty : old ≠ [] := by decide
  upstream_nonempty : upstream ≠ [] := by decide
  distinctive : Distinctive (linesOf upstream) := by
    exact .of_spelled (by repeat constructor) (by decide +kernel)

def Body.oldText (b : Body) : List Char := textOf (linesOf b.old)

def Body.upstreamText (b : Body) : List Char := textOf (linesOf b.upstream)

/-- The bodies of one file and the mark, a line before the first of them. -/
structure Backport where
  mark : String
  first : Body
  rest : List Body
  mark_line : ∀ l ∈ linesOf [mark], IsLine l := by decide +kernel

/-- What `prepare` did. -/
inductive Action
  | alreadyPresent
  | alreadyUpstream
  | patched
deriving DecidableEq, Repr

/-- The `ValueError`s, with the counts of their messages. -/
inductive PrepareError
  | inconsistent (marker : ℕ) (old new : List ℕ)
  | drifted (old new : List ℕ)
  | unverified
deriving DecidableEq, Repr

/-- Replace the bodies, one after the other. -/
def replaceBodies : List Body → List Char → List Char
  | [], text => text
  | b :: bodies, text => replaceBodies bodies (replaceOnce b.oldText b.upstreamText text)

namespace Backport

variable (b : Backport)

def bodies : List Body := b.first :: b.rest

def markText : List Char := textOf (linesOf [b.mark])

/-- How often each old body and each upstream body occurs. -/
def counts (text : List Char) : List ℕ × List ℕ :=
  (b.bodies.map fun body => count body.oldText text,
    b.bodies.map fun body => count body.upstreamText text)

/-- No old body and each upstream body once. -/
def verifiedState (text : List Char) : Bool :=
  let (old, new) := b.counts text
  old = b.bodies.map (fun _ => 0) ∧ new = b.bodies.map fun _ => 1

/-- The text with the mark and the upstream bodies. -/
def patch (source : List Char) : List Char :=
  replaceBodies b.rest (replaceOnce b.first.oldText (b.markText ++ b.first.upstreamText) source)

/-- `prepare_backend` and `prepare_manager`. -/
def prepare (source : List Char) : Except PrepareError (List Char × Action) :=
  let (old, new) := b.counts source
  let markerCount := count b.markText source
  if markerCount ≠ 0 then
    if markerCount ≠ 1 ∨ b.verifiedState source = false then
      .error (.inconsistent markerCount old new)
    else .ok (source, .alreadyPresent)
  else if b.verifiedState source then .ok (source, .alreadyUpstream)
  else if old ≠ b.bodies.map (fun _ => 1) ∨ new ≠ b.bodies.map (fun _ => 0) then
    .error (.drifted old new)
  else
    let patched := b.patch source
    if b.verifiedState patched = false ∨ count b.markText patched ≠ 1 then .error .unverified
    else .ok (patched, .patched)

/-- Each upstream body stands in the text exactly once, and no old body does. -/
def Upstream (text : List Char) : Prop :=
  ∀ body ∈ b.bodies, (∃! p, OccursAt body.upstreamText text p) ∧ ¬body.oldText <:+: text

variable {b}

theorem verifiedState_iff {text : List Char} : b.verifiedState text = true ↔ b.Upstream text := by
  rw [verifiedState, counts, decide_eq_true_iff, List.map_inj_left, List.map_inj_left, Upstream,
    ← forall₂_and]
  refine forall₂_congr fun body _ => ?_
  have hold : count body.oldText text = 0 ↔ ¬body.oldText <:+: text :=
    count_eq_zero_iff (textOf_linesOf_ne_nil body.old_nonempty)
  have hupstream : count body.upstreamText text = 1 ↔ ∃! p, OccursAt body.upstreamText text p :=
    count_eq_one_iff (textOf_linesOf_ne_nil body.upstream_nonempty) body.distinctive.unbordered
  rw [hold, hupstream, and_comm]

/-- What passes is either the source, with the mark once or not at all, or the patched
text, with the mark; and it is verified. -/
theorem prepare_cases {source t : List Char} {action : Action}
    (h : b.prepare source = .ok (t, action)) :
    b.verifiedState t = true ∧
      ((t = source ∧ count b.markText t = 1 ∧ action = .alreadyPresent) ∨
        (t = source ∧ count b.markText t = 0 ∧ action = .alreadyUpstream) ∨
        (t = b.patch source ∧ count b.markText t = 1 ∧ action = .patched)) := by
  rw [prepare] at h
  dsimp only at h
  split at h
  -- the mark is there: the text is taken as it is, or refused
  · split at h
    · cases h
    · next hok =>
      rw [not_or, not_not, Bool.not_eq_false] at hok
      obtain ⟨rfl, rfl⟩ := Prod.mk.inj (Except.ok.inj h)
      exact ⟨hok.2, .inl ⟨rfl, hok.1, rfl⟩⟩
  -- without the mark, the upstream fix may be there
  · next hmark =>
    rw [not_not] at hmark
    split at h
    · next hverified =>
      obtain ⟨rfl, rfl⟩ := Prod.mk.inj (Except.ok.inj h)
      exact ⟨hverified, .inr (.inl ⟨rfl, hmark, rfl⟩)⟩
    -- neither: every anchor has to be there once, and the patched text has to be the fixed one
    · split at h
      · cases h
      · split at h
        · cases h
        · next hok =>
          rw [not_or, not_not, Bool.not_eq_false] at hok
          obtain ⟨rfl, rfl⟩ := Prod.mk.inj (Except.ok.inj h)
          exact ⟨hok.1, .inr (.inr ⟨rfl, hok.2, rfl⟩)⟩

/-- **What passes is upstream.** -/
theorem prepare_spec {source t : List Char} {action : Action}
    (h : b.prepare source = .ok (t, action)) : b.Upstream t :=
  verifiedState_iff.mp (prepare_cases h).1

/-- **What has passed passes again, as it is.** -/
theorem prepare_again {source t : List Char} {action : Action}
    (h : b.prepare source = .ok (t, action)) :
    b.prepare t = .ok (t, if action = .alreadyUpstream then .alreadyUpstream
      else .alreadyPresent) := by
  obtain ⟨hverified, hcases⟩ := prepare_cases h
  rw [prepare]
  dsimp only
  obtain ⟨-, hmark, rfl⟩ | ⟨-, hmark, rfl⟩ | ⟨-, hmark, rfl⟩ := hcases
  -- each outcome is a text with its mark or with the upstream fix
  · rw [hmark, hverified]
    rfl
  · rw [hmark, hverified]
    rfl
  · rw [hmark, hverified]
    rfl

/-! ### Line ends -/

theorem not_mem_upstreamText (body : Body) : '\r' ∉ body.upstreamText :=
  not_mem_textOf (fun l hl => (body.distinctive.1 l hl).2) (by decide)

theorem not_mem_replaceOnce {old new text : List Char} (htext : '\r' ∉ text)
    (hnew : '\r' ∉ new) : '\r' ∉ replaceOnce old new text :=
  fun hmem => (mem_replaceOnce hmem).elim htext hnew

theorem not_mem_replaceBodies {text : List Char} (htext : '\r' ∉ text) (bodies : List Body) :
    '\r' ∉ replaceBodies bodies text := by
  induction bodies generalizing text with
  | nil => exact htext
  | cons body bodies ih => exact ih (not_mem_replaceOnce htext (not_mem_upstreamText body))

/-- The script puts no carriage return into a text. -/
theorem not_mem_of_prepare {source t : List Char} {action : Action}
    (h : b.prepare source = .ok (t, action)) (hsource : '\r' ∉ source) : '\r' ∉ t := by
  obtain ⟨-, ⟨rfl, -⟩ | ⟨rfl, -⟩ | ⟨rfl, -⟩⟩ := prepare_cases h
  · exact hsource
  · exact hsource
  · refine not_mem_replaceBodies (not_mem_replaceOnce hsource ?_) b.rest
    rw [List.mem_append, not_or]
    exact ⟨not_mem_textOf (fun l hl => (b.mark_line l hl).2) (by decide),
      not_mem_upstreamText b.first⟩

end Backport

end Dsv41Overlay.Patching
