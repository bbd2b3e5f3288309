import Mathlib.Data.List.Sort
import Mathlib.Data.List.Perm.Basic
import Dsv41Overlay.Lib.Regex

/-!
# The trie pattern of a set of words

`_ctg_trie_pattern` and `_ots_trie_pattern` build one regex for a set of words:
a dict trie, one branch for each next character in sorted order, and `(?: )?`
around what follows the end of a word. `triePattern` is that function, with the
regex as a syntax tree.

`matcher_triePattern` is the fact everything else uses: a backtracking engine
matches with it exactly the longest word at the head of the text. The engine's
results at a node are the words below it that fit, longest first
(`Trie.fits`); that is an induction on the text, and it needs that the keys of
a node are distinct and that a leaf ends a word (`Trie.Live`).
-/

namespace Dsv41Overlay
namespace Tokens

/-! ### Tries -/

universe u

mutual

/-- A dict trie. `terminal` is the key `""`. -/
inductive Trie (α : Type u)
  | node (terminal : Bool) (children : Forest α)

/-- The entries of a node, in insertion order. -/
inductive Forest (α : Type u)
  | nil
  | cons (c : α) (t : Trie α) (rest : Forest α)

end

variable {α : Type u}

namespace Forest

/-- The keys of a node. -/
def keys : Forest α → List α
  | nil => []
  | cons c _ rest => c :: rest.keys

end Forest

/-- A new node. -/
def Trie.empty : Trie α := .node false .nil

section Build

variable [DecidableEq α]

/-- Apply `f` to the child at `c`, a new one if there is none (`setdefault`). -/
def Forest.upsert (c : α) (f : Trie α → Trie α) : Forest α → Forest α
  | .nil => .cons c (f .empty) .nil
  | .cons d t rest => if d = c then .cons d (f t) rest else .cons d t (rest.upsert c f)

/-- Insert a word. -/
def Trie.insert : List α → Trie α → Trie α
  | [], .node _ children => .node true children
  | c :: w, .node terminal children => .node terminal (children.upsert c (Trie.insert w))

/-- The trie of a list of words. -/
def trieOf (words : List (List α)) : Trie α := words.foldl (fun t w => t.insert w) .empty

end Build

section Pattern

variable [LinearOrder α]

mutual

/-- `build`: the pattern of a node. -/
def Trie.build : Trie α → Regex α
  | .node terminal children =>
    -- `sorted(node)`: the branches in the order of their characters
    let branches := (children.branches.insertionSort fun a b => a.1 ≤ b.1).map Prod.snd
    if branches.isEmpty then .empty
    else
      let body := Regex.alternation branches
      if terminal then .opt body else body

/-- The branch of each child, with its character. -/
def Forest.branches : Forest α → List (α × Regex α)
  | .nil => []
  | .cons c t rest => (c, .seq (.char c) t.build) :: rest.branches

end

/-- `_ctg_trie_pattern`, `_ots_trie_pattern`. -/
def triePattern (words : List (List α)) : Regex α := (trieOf words).build

end Pattern

/-! ### Words of a trie -/

section Words

variable [DecidableEq α]

/-- The child at `c`. -/
def Forest.find? : Forest α → α → Option (Trie α)
  | .nil, _ => none
  | .cons d t rest, c => if d = c then some t else rest.find? c

/-- The word is in the trie. -/
def Trie.accepts : Trie α → List α → Bool
  | .node terminal _, [] => terminal
  | .node _ children, c :: w =>
    match children.find? c with
    | some t => t.accepts w
    | none => false

theorem Forest.find?_upsert (c d : α) (f : Trie α → Trie α) : ∀ children : Forest α,
    (children.upsert c f).find? d
      = if c = d then some (f ((children.find? c).getD .empty)) else children.find? d
  | .nil => by
    simp only [Forest.upsert, Forest.find?, Option.getD_none]
  | .cons e t rest => by
    -- the child at `c` is changed in place
    by_cases hec : e = c
    · subst hec
      simp only [Forest.upsert, Forest.find?, if_true, Option.getD_some]
      split <;> rfl
    · rw [Forest.upsert, if_neg hec, Forest.find?, Forest.find?_upsert c d f rest, Forest.find?,
        if_neg hec, Forest.find?]
      -- the child at `e` stays
      by_cases hed : e = d
      · subst hed
        rw [if_pos rfl, if_neg (Ne.symm hec), if_pos rfl]
      · rw [if_neg hed, if_neg hed]

/-- Inserting a word adds that word. -/
theorem Trie.accepts_insert (w v : List α) (t : Trie α) :
    (t.insert w).accepts v = (decide (w = v) || t.accepts v) := by
  -- induction on the word, along the path it is inserted at
  induction w generalizing v t with
  | nil =>
    -- the word ends here
    obtain ⟨terminal, children⟩ := t
    cases v with
    | nil => simp [Trie.insert, Trie.accepts]
    | cons d v => simp [Trie.insert, Trie.accepts]
  | cons c w ih =>
    obtain ⟨terminal, children⟩ := t
    cases v with
    | nil => simp [Trie.insert, Trie.accepts]
    | cons d v =>
      rw [Trie.insert, Trie.accepts, Forest.find?_upsert]
      -- both words go to one child, or to two
      by_cases hcd : c = d
      · subst hcd
        rw [if_pos rfl]
        dsimp only
        rw [ih, Trie.accepts]
        cases children.find? c with
        | none => simp [Trie.empty]; cases v <;> simp [Trie.accepts, Forest.find?]
        | some t => simp
      · rw [if_neg hcd, Trie.accepts]
        simp [hcd]

/-- The words of `trieOf`. -/
theorem accepts_trieOf (words : List (List α)) (v : List α) :
    (trieOf words).accepts v = true ↔ v ∈ words := by
  -- the words inserted one by one
  have hfold : ∀ t : Trie α, ((words.foldl (fun t w => t.insert w) t).accepts v = true ↔
      v ∈ words ∨ t.accepts v = true) := by
    induction words with
    | nil => simp
    | cons w words ih =>
      intro t
      rw [List.foldl_cons, ih, Trie.accepts_insert, Bool.or_eq_true, decide_eq_true_eq,
        List.mem_cons]
      tauto
  rw [trieOf, hfold]
  -- the empty trie has no word
  have hempty : (Trie.empty : Trie α).accepts v = false := by
    cases v <;> rfl
  simp [hempty]

end Words

/-! ### Well-formed tries -/

mutual

/-- Keys are distinct and a leaf ends a word, everywhere in the trie. -/
def Trie.Live : Trie α → Prop
  | .node terminal children => (children.keys = [] → terminal = true) ∧ children.Live

/-- The same for the children of a node. -/
def Forest.Live : Forest α → Prop
  | .nil => True
  | .cons c t rest => c ∉ rest.keys ∧ t.Live ∧ rest.Live

end

section Live

variable [DecidableEq α]

theorem Forest.mem_keys_upsert (c d : α) (f : Trie α → Trie α) : ∀ children : Forest α,
    d ∈ (children.upsert c f).keys ↔ d = c ∨ d ∈ children.keys
  | .nil => by simp [Forest.upsert, Forest.keys]
  | .cons e t rest => by
    unfold Forest.upsert
    split
    · next h =>
      -- the child is there already
      subst h
      simp [Forest.keys]
    · rw [Forest.keys, Forest.keys, List.mem_cons, List.mem_cons,
        Forest.mem_keys_upsert c d f rest]
      tauto

theorem Forest.Live.upsert {c : α} {f : Trie α → Trie α}
    (hf : ∀ t, t = .empty ∨ t.Live → (f t).Live) : ∀ {children : Forest α}, children.Live →
    (children.upsert c f).Live
  | .nil, _ => ⟨by simp [Forest.keys], hf _ (Or.inl rfl), trivial⟩
  | .cons e t rest, h => by
    obtain ⟨hkey, ht, hrest⟩ := h
    unfold Forest.upsert
    split
    · exact ⟨hkey, hf t (Or.inr ht), hrest⟩
    · next hne =>
      -- the new key is none of the old ones
      refine ⟨?_, ht, hrest.upsert hf⟩
      rw [Forest.mem_keys_upsert]
      rintro (h | h)
      · exact hne h
      · exact hkey h

/-- Inserting a word into a new or a live trie gives a live one. -/
theorem Trie.live_insert (w : List α) (t : Trie α) (h : t = .empty ∨ t.Live) :
    (t.insert w).Live := by
  induction w generalizing t with
  | nil =>
    obtain ⟨terminal, children⟩ := t
    -- a node that ends a word may be a leaf
    refine ⟨fun _ => rfl, ?_⟩
    obtain h | h := h
    · cases h
      trivial
    · exact h.2
  | cons c w ih =>
    obtain ⟨terminal, children⟩ := t
    have hchildren : children.Live := by
      obtain h | h := h
      · cases h
        trivial
      · exact h.2
    -- the node has a child now, so it need not end a word
    refine ⟨fun hkeys => ?_, hchildren.upsert ih⟩
    have : c ∈ (children.upsert c (Trie.insert w)).keys :=
      (Forest.mem_keys_upsert _ _ _ _).mpr (Or.inl rfl)
    rw [hkeys] at this
    exact absurd this (List.not_mem_nil)

theorem live_trieOf {words : List (List α)} (hne : words ≠ []) : (trieOf words).Live := by
  have hfold : ∀ (ws : List (List α)) (t : Trie α), t.Live →
      (ws.foldl (fun t w => t.insert w) t).Live := by
    intro ws
    induction ws with
    | nil => exact fun t h => h
    | cons w ws ih => exact fun t h => ih _ (Trie.live_insert w t (Or.inr h))
  cases words with
  | nil => exact absurd rfl hne
  | cons w ws => exact hfold ws _ (Trie.live_insert w _ (Or.inl rfl))

theorem Forest.Live.of_find? {c : α} {t : Trie α} : ∀ {children : Forest α}, children.Live →
    children.find? c = some t → t.Live
  | .cons _ _ _, h, hc => by
    obtain ⟨-, ht, hrest⟩ := h
    rw [Forest.find?] at hc
    split at hc
    · cases hc
      exact ht
    · exact hrest.of_find? hc

theorem Forest.find?_eq_none_iff {c : α} : ∀ {children : Forest α},
    children.find? c = none ↔ c ∉ children.keys
  | .nil => by simp [Forest.find?, Forest.keys]
  | .cons e t rest => by
    rw [Forest.find?, Forest.keys, List.mem_cons, not_or]
    split
    · next h => simp [h]
    · next h =>
      rw [Forest.find?_eq_none_iff]
      exact ⟨fun hc => ⟨fun heq => h heq.symm, hc⟩, fun hc => hc.2⟩

end Live

/-! ### What the pattern matches -/

section Matches

/-- The lengths of the words of a trie at the head of a text, longest first. -/
def Trie.fits [DecidableEq α] : Trie α → List α → List ℕ
  | .node terminal _, [] => if terminal then [0] else []
  | .node terminal children, c :: s =>
    (match children.find? c with
      | some t => (t.fits s).map (· + 1)
      | none => []) ++ if terminal then [0] else []

variable [LinearOrder α]

theorem Forest.keys_branches : ∀ children : Forest α,
    children.branches.map Prod.fst = children.keys
  | .nil => rfl
  | .cons c _ rest => congrArg (c :: ·) (Forest.keys_branches rest)

/-- A branch is a character followed by the pattern of its child. -/
theorem Forest.mem_branches {c : α} {r : Regex α} : ∀ {children : Forest α}, children.Live →
    ((c, r) ∈ children.branches ↔
      ∃ t, children.find? c = some t ∧ r = .seq (.char c) t.build)
  | .nil, _ => by simp [Forest.branches, Forest.find?]
  | .cons d _ rest, h => by
    obtain ⟨hkey, -, hrest⟩ := h
    rw [Forest.branches, List.mem_cons, Forest.mem_branches hrest, Forest.find?, Prod.mk.injEq]
    -- only one child has the character
    by_cases hdc : d = c
    · subst hdc
      rw [if_pos rfl, Forest.find?_eq_none_iff.mpr hkey]
      simp
    · rw [if_neg hdc]
      constructor
      · rintro (⟨rfl, -⟩ | h)
        · exact absurd rfl hdc
        · exact h
      · exact Or.inr

omit [LinearOrder α] in
theorem Forest.nodup_keys : ∀ {children : Forest α}, children.Live → children.keys.Nodup
  | .nil, _ => List.nodup_nil
  | .cons _ _ _, ⟨hkey, _, hrest⟩ => List.nodup_cons.mpr ⟨hkey, Forest.nodup_keys hrest⟩

/-- Branches that begin with other characters have no result. -/
theorem flatMap_results_of_not_mem {branches : List (α × Regex α)} {c : α} {s : List α}
    (hform : ∀ d r, (d, r) ∈ branches → ∃ t : Trie α, r = .seq (.char d) t.build)
    (hc : c ∉ branches.map Prod.fst) :
    (branches.map Prod.snd).flatMap (fun r => r.results (c :: s)) = [] := by
  rw [List.flatMap_eq_nil_iff]
  intro r hr
  obtain ⟨⟨d, r'⟩, hmem, rfl⟩ := List.mem_map.mp hr
  obtain ⟨t, ht⟩ := hform d r' hmem
  have hne : c ≠ d := fun h => hc (List.mem_map.mpr ⟨_, hmem, h.symm⟩)
  dsimp only
  rw [ht, Regex.results_seq_char_of_ne hne]

/-- Among branches with distinct characters only the one of the next character
has results. -/
theorem flatMap_results_of_mem {branches : List (α × Regex α)} {c : α} {s : List α} {t : Trie α}
    (hform : ∀ d r, (d, r) ∈ branches → ∃ t : Trie α, r = .seq (.char d) t.build)
    (hnodup : (branches.map Prod.fst).Nodup) (hmem : (c, .seq (.char c) t.build) ∈ branches) :
    (branches.map Prod.snd).flatMap (fun r => r.results (c :: s)) = t.build.results s := by
  induction branches with
  | nil => exact absurd hmem List.not_mem_nil
  | cons b branches ih =>
    have hform' : ∀ d r, (d, r) ∈ branches → ∃ t : Trie α, r = .seq (.char d) t.build :=
      fun d r h => hform d r (List.mem_cons_of_mem _ h)
    rw [List.map_cons, List.nodup_cons] at hnodup
    rw [List.map_cons, List.flatMap_cons]
    -- the branch of the character comes first, or a branch of another one does
    obtain rfl | hrest := List.mem_cons.mp hmem
    · rw [flatMap_results_of_not_mem hform' hnodup.1, List.append_nil]
      exact Regex.results_seq_char_self _ _ _
    · obtain ⟨d, r⟩ := b
      obtain ⟨t', rfl⟩ := hform d r (List.mem_cons_self ..)
      have hne : c ≠ d := by
        rintro rfl
        exact hnodup.1 (List.mem_map.mpr ⟨_, hrest, rfl⟩)
      rw [ih hform' hnodup.2 hrest, Regex.results_seq_char_of_ne hne, List.nil_append]

/-- The results of a node's pattern: those of the child at the next character,
then the text itself if a word ends here. -/
theorem Trie.results_node {terminal : Bool} {children : Forest α}
    (h : (Trie.node terminal children).Live) (s : List α) :
    (Trie.node terminal children).build.results s
      = (match s with
          | [] => []
          | c :: s' =>
            match children.find? c with
            | some t => t.build.results s'
            | none => []) ++ if terminal then [s] else [] := by
  obtain ⟨hleaf, hchildren⟩ := h
  -- sorting the branches changes neither which there are nor their characters
  have hperm := List.perm_insertionSort (fun a b : α × Regex α => a.1 ≤ b.1) children.branches
  have hform : ∀ d r, (d, r) ∈ children.branches.insertionSort (fun a b => a.1 ≤ b.1) →
      ∃ t : Trie α, r = .seq (.char d) t.build := by
    intro d r hmem
    obtain ⟨t, -, hr⟩ := (Forest.mem_branches hchildren).mp (hperm.mem_iff.mp hmem)
    exact ⟨t, hr⟩
  have hkeys := hperm.map Prod.fst
  rw [Forest.keys_branches] at hkeys
  have hnodup := hkeys.nodup_iff.mpr (Forest.nodup_keys hchildren)
  rw [Trie.build]
  dsimp only
  by_cases hempty : children.keys = []
  · -- a leaf: the empty pattern
    have hnone : ∀ c, children.find? c = none := fun c =>
      Forest.find?_eq_none_iff.mpr (by rw [hempty]; exact List.not_mem_nil)
    rw [if_pos (by rw [List.isEmpty_iff, List.map_eq_nil_iff, ← List.map_eq_nil_iff (f := Prod.fst),
      ← List.perm_nil, ← hempty]; exact hkeys), hleaf hempty]
    cases s with
    | nil => rfl
    | cons c s =>
      dsimp only
      rw [hnone]
      rfl
  · have hne : (children.branches.insertionSort fun a b => a.1 ≤ b.1).map Prod.snd ≠ [] := by
      intro h
      rw [List.map_eq_nil_iff] at h
      rw [h] at hkeys
      exact hempty (List.perm_nil.mp hkeys.symm)
    -- the alternatives: only the branch of the next character has results
    have hbody : (Regex.alternation
        ((children.branches.insertionSort fun a b => a.1 ≤ b.1).map Prod.snd)).results s
        = (match s with
            | [] => []
            | c :: s' =>
              match children.find? c with
              | some t => t.build.results s'
              | none => []) := by
      rw [Regex.results_alternation hne]
      cases s with
      | nil =>
        rw [List.flatMap_eq_nil_iff]
        intro r hr
        obtain ⟨⟨d, r'⟩, hmem, rfl⟩ := List.mem_map.mp hr
        obtain ⟨t, ht⟩ := hform d r' hmem
        dsimp only
        rw [ht, Regex.results_seq_char_nil]
      | cons c s =>
        dsimp only
        cases hfind : children.find? c with
        | none =>
          refine flatMap_results_of_not_mem hform fun hmem => ?_
          exact Forest.find?_eq_none_iff.mp hfind (hkeys.mem_iff.mp hmem)
        | some t =>
          refine flatMap_results_of_mem hform hnodup (hperm.mem_iff.mpr ?_)
          exact (Forest.mem_branches hchildren).mpr ⟨t, hfind, rfl⟩
    rw [if_neg (by rwa [List.isEmpty_iff])]
    cases terminal with
    | true => exact congrArg (· ++ [s]) hbody
    | false => exact hbody.trans (List.append_nil _).symm

/-- **The results of a pattern**, in the engine's order: what is left behind each
word of the trie at the head of the text, the longest word first. -/
theorem Trie.results_build (s : List α) (t : Trie α) (ht : t.Live) :
    t.build.results s = (t.fits s).map (s.drop ·) := by
  -- induction on the text, down the path of its characters
  induction s generalizing t with
  | nil =>
    obtain ⟨terminal, children⟩ := t
    rw [Trie.results_node ht, Trie.fits]
    cases terminal <;> rfl
  | cons c s ih =>
    obtain ⟨terminal, children⟩ := t
    rw [Trie.results_node ht, Trie.fits]
    dsimp only
    rw [List.map_append]
    congr 1
    -- the words that go on, then the one that ends here
    · cases hfind : children.find? c with
      | none => rfl
      | some t =>
        dsimp only
        rw [ih t (ht.2.of_find? hfind), List.map_map]
        rfl
    · cases terminal <;> rfl

omit [LinearOrder α] in
/-- A length fits when the text's prefix of that length is a word. -/
theorem Trie.mem_fits [DecidableEq α] {n : ℕ} (s : List α) (t : Trie α) :
    n ∈ t.fits s ↔ n ≤ s.length ∧ t.accepts (s.take n) = true := by
  induction s generalizing n t with
  | nil =>
    obtain ⟨terminal, children⟩ := t
    rw [Trie.fits, List.take_nil, Trie.accepts]
    cases terminal <;> simp
  | cons c s ih =>
    obtain ⟨terminal, children⟩ := t
    rw [Trie.fits, List.mem_append]
    -- the empty word, or one that goes on
    cases n with
    | zero =>
      rw [List.take_zero, Trie.accepts]
      have hzero : 0 ∉ (match children.find? c with
          | some t => (t.fits s).map (· + 1)
          | none => []) := by
        split
        · simp
        · exact List.not_mem_nil
      -- no child has the empty word
      cases terminal <;> simp [hzero]
    | succ n =>
      rw [List.take_succ_cons, Trie.accepts, List.length_cons, Nat.succ_le_succ_iff]
      -- a word of positive length is one of the child at its first character
      have hroot : n + 1 ∉ if terminal then [0] else [] := by
        cases terminal <;> simp
      rw [or_iff_left hroot]
      cases children.find? c with
      | none => simp
      | some t =>
        dsimp only
        rw [← ih, List.mem_map]
        simp

omit [LinearOrder α] in
/-- The lengths that fit are listed longest first. -/
theorem Trie.fits_sorted [DecidableEq α] (s : List α) (t : Trie α) :
    (t.fits s).Pairwise (· > ·) := by
  induction s generalizing t with
  | nil =>
    obtain ⟨terminal, children⟩ := t
    rw [Trie.fits]
    cases terminal <;> simp
  | cons c s ih =>
    obtain ⟨terminal, children⟩ := t
    rw [Trie.fits, List.pairwise_append]
    refine ⟨?_, by cases terminal <;> simp, fun a ha b hb => ?_⟩
    -- the words of the child are longer by one
    · cases children.find? c with
      | none => exact List.Pairwise.nil
      | some t => exact List.pairwise_map.mpr ((ih t).imp Nat.succ_lt_succ)
    · -- the word that ends here is the shortest
      obtain rfl : b = 0 := by
        cases terminal <;> simp at hb
        exact hb
      cases hfind : children.find? c with
      | none =>
        rw [hfind] at ha
        exact absurd ha List.not_mem_nil
      | some t =>
        rw [hfind] at ha
        obtain ⟨k, -, rfl⟩ := List.mem_map.mp ha
        exact Nat.succ_pos k

omit [LinearOrder α] in
/-- A word at the head of the text fits with its length. -/
theorem length_mem_fits [DecidableEq α] {words : List (List α)} {s w : List α} (hw : w ∈ words)
    (hpre : w <+: s) : w.length ∈ (trieOf words).fits s := by
  rw [Trie.mem_fits, accepts_trieOf, ← List.prefix_iff_eq_take.mp hpre]
  exact ⟨hpre.length_le, hw⟩

/-- **The trie pattern matches the longest word.** -/
theorem matcher_triePattern {words : List (List α)} (hne : words ≠ []) :
    (triePattern words).matcher = longest words := by
  funext s
  have hresults := Trie.results_build s (trieOf words) (live_trieOf hne)
  rw [Regex.matcher, triePattern, hresults]
  cases hfits : (trieOf words).fits s with
  | nil =>
    -- no length fits: no word is at the head
    refine (longest_eq_none_iff.mpr fun w hw hpre => ?_).symm
    have hmem := length_mem_fits hw hpre
    rw [hfits] at hmem
    exact absurd hmem List.not_mem_nil
  | cons n rest =>
    -- the first length that fits is a word's, and the others are shorter
    have hn : n ≤ s.length ∧ (trieOf words).accepts (s.take n) = true :=
      (Trie.mem_fits s _).mp (by rw [hfits]; exact List.mem_cons_self ..)
    rw [accepts_trieOf] at hn
    have hsorted := Trie.fits_sorted s (trieOf words)
    rw [hfits, List.pairwise_cons] at hsorted
    rw [List.map_cons, List.head?_cons, Option.map_some, List.length_drop, Nat.sub_sub_self hn.1]
    refine (longest_eq_some_iff.mpr ⟨⟨s.take n, hn.2, List.take_prefix _ _, ?_⟩, ?_⟩).symm
    · rw [List.length_take, Nat.min_eq_left hn.1]
    · intro w hw hpre
      have hmem := length_mem_fits hw hpre
      rw [hfits] at hmem
      obtain h | h := List.mem_cons.mp hmem
      · exact h.le
      · exact (hsorted.1 _ h).le

end Matches

end Tokens
end Dsv41Overlay
