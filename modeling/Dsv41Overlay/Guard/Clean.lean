import Dsv41Overlay.Guard.Spec

/-!
# Clean prompts

A clean prompt goes to the tokenizer of the full vocabulary as one string. That
tokenizer takes added tokens leftmost and longest over the whole prompt, while
the guard has searched each text alone. The two agree when no added-token string
crosses the border of a text and a template token (`clean_iff`): no added string
starts in a text and runs over its end, and none that is longer than a template
token starts with it.

The condition is needed. `｜DSML｜` overlaps itself, so a text that ends in
`｜DSML` makes a token of its own with the next template token's first character
(`clean_overrun`).
-/

namespace Dsv41Overlay
namespace Guard

open Tokens

/-! ### Texts and words side by side -/

section Separated

variable {ι α : Type*} (words : List (List α)) (f : ι → List α)

/-- No word starts inside `t` and runs over its end into `after`. -/
def NoOverrun (t after : List α) : Prop :=
  ∀ a b, t = a ++ b → b ≠ [] → ∀ w ∈ words, w <+: b ++ after → w.length ≤ b.length

/-- No word that is longer than `token` starts where it does. -/
def NoExtension (token after : List α) : Prop :=
  ∀ w ∈ words, w <+: token ++ after → w.length ≤ token.length

/-- The flattened text behind a head. -/
def flattenTail (tail : List (ι × List α)) : List α := tail.flatMap fun p => f p.1 ++ p.2

/-- No word crosses a border behind the head. -/
def SeparatedTail : List (ι × List α) → Prop
  | [] => True
  | (i, t) :: rest =>
    NoExtension words (f i) (t ++ flattenTail f rest) ∧ NoOverrun words t (flattenTail f rest)
      ∧ SeparatedTail rest

/-- No word crosses the border of a text and a label. -/
def Separated (x : Interleaving ι α) : Prop :=
  NoOverrun words x.head (flattenTail f x.tail) ∧ SeparatedTail words f x.tail

variable [DecidableEq α] {words f}

/-- In a text without a word, a word at some place runs over the end. -/
theorem noOverrun_iff {t after : List α} (ht : ∀ w ∈ words, ¬ w <:+: t) :
    NoOverrun words t after ↔
      ∀ a b, t = a ++ b → b ≠ [] → fires (longest words) (b ++ after) = false := by
  refine forall_congr' fun a => forall_congr' fun b => forall_congr' fun hab =>
    forall_congr' fun _ => ?_
  -- a word that ends inside the text would be one of the text's own
  have hinside : ∀ w ∈ words, w <+: b ++ after → ¬ w.length ≤ b.length := by
    intro w hw hpre hle
    obtain ⟨c, rfl⟩ := List.prefix_of_prefix_length_le hpre (List.prefix_append b after) hle
    exact ht w hw ⟨a, c, by rw [hab, List.append_assoc]⟩
  constructor
  · intro h
    by_contra hf
    obtain ⟨n, hn⟩ := fires_iff.mp (Bool.eq_true_of_not_eq_false hf)
    obtain ⟨⟨w, hw, hpre, -⟩, -⟩ := longest_eq_some_iff.mp hn
    exact hinside w hw hpre (h w hw hpre)
  · intro h w hw hpre
    -- an empty word would stand in the text
    have hne : w ≠ [] := by
      rintro rfl
      exact ht [] hw List.nil_infix
    rw [fires_longest hw hne hpre] at h
    exact Bool.noConfusion h

/-- The longest word at a word is the word itself unless one extends it. -/
theorem noExtension_iff {token after : List α} (h : token ∈ words) :
    NoExtension words token after ↔ longest words (token ++ after) = some token.length := by
  rw [longest_eq_some_iff]
  exact ⟨fun hno => ⟨⟨token, h, List.prefix_append _ _, rfl⟩, hno⟩, fun hmax => hmax.2⟩

/-- **Scanning an interleaving** of words with texts that hold none gives it back
when no word crosses a border. -/
theorem scan_flatten_iff (x : Interleaving ι α) (hf : ∀ i, f i ∈ words)
    (hclean : ∀ t ∈ x.texts, ∀ w ∈ words, ¬ w <:+: t) :
    scan (longest words) (x.flatten f) = x.items f ↔ Separated words f x := by
  have hne : ∀ i, f i ≠ [] := by
    intro i hnil
    refine hclean x.head (List.mem_cons_self ..) _ (hf i) ?_
    rw [hnil]
    exact List.nil_infix
  -- behind the head: one label and its text at a time
  have htail : ∀ tail : List (ι × List α), (∀ p ∈ tail, ∀ w ∈ words, ¬ w <:+: p.2) →
      (scan (longest words) (flattenTail f tail)
          = (tail.flatMap fun p => .hit (f p.1) :: p.2.map .lit)
        ↔ SeparatedTail words f tail) := by
    intro tail
    induction tail with
    | nil => exact fun _ => ⟨fun _ => trivial, fun _ => rfl⟩
    | cons p tail ih =>
      intro h
      obtain ⟨i, t⟩ := p
      have ht := h (i, t) (List.mem_cons_self ..)
      have hflat : flattenTail f ((i, t) :: tail) = f i ++ (t ++ flattenTail f tail) := by
        rw [flattenTail, List.flatMap_cons, List.append_assoc]
        rfl
      rw [hflat, List.flatMap_cons, List.cons_append, scan_hit_iff (longest_bounded _) (hne i),
        scan_lits_iff, ih fun q hq => h q (List.mem_cons_of_mem _ hq), SeparatedTail,
        noExtension_iff (hf i), noOverrun_iff ht]
  rw [Interleaving.flatten, Interleaving.items, scan_lits_iff, Separated,
    noOverrun_iff (hclean _ (List.mem_cons_self ..))]
  refine and_congr_right fun _ => htail x.tail fun p hp => ?_
  exact hclean _ (List.mem_cons_of_mem _ (List.mem_map_of_mem hp))

end Separated

namespace ControlTokenGuard

variable {g : ControlTokenGuard}

/-! ### The clean path -/

/-- The id of a piece that is an added token. -/
def addedId (v : AddedVocab) : Item Char → Option ℕ
  | .lit _ => none
  | .hit w => v.lookup w

/-- The ids of the added tokens that a scan has taken. -/
def addedIds (v : AddedVocab) (items : List (Item Char)) : List ℕ := items.filterMap (addedId v)

theorem addedIds_append (v : AddedVocab) (a b : List (Item Char)) :
    addedIds v (a ++ b) = addedIds v a ++ addedIds v b := List.filterMap_append

theorem addedIds_lits (v : AddedVocab) (t : List Char) : addedIds v (t.map .lit) = [] := by
  rw [addedIds, List.filterMap_map, List.filterMap_eq_nil_iff]
  exact fun _ _ => rfl

/-- The template's tokens at their places have the template's ids. -/
theorem addedIds_items (x : g.Render) :
    addedIds g.ids (x.items fun i => g.tokens.get i) = templateIds x := by
  rw [Interleaving.items, addedIds_append, addedIds_lits, List.nil_append, templateIds,
    Interleaving.labels]
  -- only the labels count, and each has its id
  generalize x.tail = tail
  induction tail with
  | nil => rfl
  | cons p tail ih =>
    have htoken : addedIds g.ids [.hit (g.tokens.get p.1)] = [idOf p.1] :=
      List.filterMap_cons_some (lookup_get p.1)
    rw [List.flatMap_cons, ← List.singleton_append, List.append_assoc, addedIds_append,
      addedIds_append, htoken, addedIds_lits, ih]
    rfl

/-- **When a clean prompt keeps its control tokens.** `encode` hands a clean
prompt on as it is; the tokenizer then takes exactly the template's tokens at the
template's places, so that their ids are those of the segment-wise path, if and
only if no added-token string crosses the border of a text and a template token. -/
theorem clean_iff (tokenizer : Tokenizer) (kwargs : Kwargs) (x : g.Render)
    (hforged : ¬ Forged x) (hclean : ¬ Dirty x) :
    g.encode tokenizer (prompt x) (marked x) kwargs
        = .ok (cleanResult tokenizer kwargs (prompt x))
      ∧ ((scan (longest g.ids.words) (prompt x) = x.items (fun i => g.tokens.get i)
            ∧ addedIds g.ids (scan (longest g.ids.words) (prompt x)) = templateIds x)
          ↔ Separated g.ids.words (fun i => g.tokens.get i) x) := by
  refine ⟨encode_of_clean hforged hclean, ?_⟩
  have hscan := scan_flatten_iff x get_mem_words fun t ht w hw hocc =>
    hclean ⟨t, ht, w, hw, hocc⟩
  rw [← hscan]
  exact ⟨fun h => h.1, fun h => ⟨h, by rw [prompt, h, addedIds_items]⟩⟩

/-- A guard whose only control token overlaps itself. -/
def dsmlGuard : ControlTokenGuard where
  ids := [("｜DSML｜".toList, 128825)]
  nonce := List.replicate 32 'a'
  tokens := ["｜DSML｜".toList]
  ids_ne_nil := List.cons_ne_nil _ _
  nonce_hex := thinkGuard.nonce_hex
  nonce_length := thinkGuard.nonce_length
  tokens_mem := by decide
  tokens_length := thinkGuard.tokens_length

/-- Two clean texts around one template token. -/
def overrunRender : dsmlGuard.Render :=
  ⟨"｜DSML".toList, [(⟨0, Nat.one_pos⟩, "DSML｜".toList)]⟩

theorem overrunRender_clean : ¬ Forged overrunRender ∧ ¬ Dirty overrunRender := by
  refine ⟨not_forged_of_not_mem (by decide), ?_⟩
  rw [← dirty_iff, matcher_scanPattern]
  decide

/-- **A clean prompt with an injected token.** The guard hands the prompt on as
clean, and the tokenizer takes two control tokens out of it, where the template
put one. -/
theorem clean_overrun :
    dsmlGuard.encode codePoints (prompt overrunRender) (marked overrunRender)
        ⟨some false, none, none⟩ = .ok (.prompt "｜DSML｜DSML｜DSML｜".toList)
      ∧ addedIds dsmlGuard.ids
          (scan (longest dsmlGuard.ids.words) "｜DSML｜DSML｜DSML｜".toList) = [128825, 128825]
      ∧ templateIds overrunRender = [128825] := by
  refine ⟨encode_of_clean overrunRender_clean.1 overrunRender_clean.2, by decide, by decide⟩

/-- A text that ends in an ordinary character crosses nothing. -/
theorem clean_iff_tag :
    scan (longest dsmlGuard.ids.words) "<｜DSML｜ calls>".toList
        = "<".toList.map .lit ++ .hit "｜DSML｜".toList :: " calls>".toList.map .lit
      ∧ Separated dsmlGuard.ids.words (fun i => dsmlGuard.tokens.get i)
          ⟨"<".toList, [(⟨0, Nat.one_pos⟩, " calls>".toList)]⟩ := by
  have hforged : ¬ Forged (g := dsmlGuard) ⟨"<".toList, [(⟨0, Nat.one_pos⟩, " calls>".toList)]⟩ :=
    not_forged_of_not_mem (by decide)
  have hclean : ¬ Dirty (g := dsmlGuard)
      ⟨"<".toList, [(⟨0, Nat.one_pos⟩, " calls>".toList)]⟩ := by
    rw [← dirty_iff, matcher_scanPattern]
    decide
  have hscan : scan (longest dsmlGuard.ids.words) "<｜DSML｜ calls>".toList
      = "<".toList.map .lit ++ .hit "｜DSML｜".toList :: " calls>".toList.map .lit := by decide
  refine ⟨hscan, ?_⟩
  exact (clean_iff codePoints ⟨none, none, none⟩ _ hforged hclean).2.mp ⟨hscan, by decide⟩

end ControlTokenGuard
end Guard
end Dsv41Overlay
