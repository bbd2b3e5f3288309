import Dsv41Overlay.SwaFinal.Run

/-!
# Only complete, processed tails are hashed

`_dsv41_swa_final_cache` hands `cache_full_blocks` the hull of up to two tails, which may
overlap, touch, leave a gap or be hashed in part. The mask selects the blocks of the tails
that have no hash yet; that no other block is touched, and that what is selected is
complete, is a statement about the mask alone (`mask_selects`), whatever the counts.

The hashes themselves come from the request: one for each full block of its `T` tokens.
The hook passes a count `C ≤ T`, so that each selected block has one
(`cacheFullBlocksOf_eq`). Beyond the request's tokens there is none, and
`final_tails_past_tokens` is a call that runs into the end of the list.
-/

namespace Dsv41Overlay
namespace SwaFinal

variable {τ H : Type*}

/-! ### The request's own hashes -/

/-- `request.block_hashes`, one for each full block of the request's tokens. -/
def blockHashes (g : SwaGroup) (chain : Option H → List τ → H) (toks : List τ) : List H :=
  (List.range (toks.length / g.blockSize)).map (hashesOf g chain toks)

/-- `cache_full_blocks` with the request's list of hashes. -/
def cacheFullBlocksOf (blockHashes : List H) (blocks : List (Block H)) (numCached numFull : ℕ)
    (mask : List Bool) : Except String (List (Block H)) :=
  cacheFullBlocksAt (fun i => blockHashes[i]?) blocks numCached numFull mask

/-- `_dsv41_swa_final_cache` on a request of tokens `toks`. -/
def swaFinalCacheOf (g : SwaGroup) (chain : Option H → List τ → H) (toks : List τ)
    (blocks : List (Block H)) (numComputed : ℕ) : Except String (List ℕ × List (Block H)) :=
  swaFinalCacheWith (cacheFullBlocksOf (blockHashes g chain toks)) g toks.length blocks numComputed

section Hashes

variable {hashAt hashAt' : ℕ → Option H} {mask : List Bool}

/-- The loop reads the hashes of the selected blocks and no others. -/
theorem cacheLoop_congr {i : ℕ} {blocks : List (Block H)}
    (h : ∀ k, mask.getD k false = true → hashAt (i + k) = hashAt' (i + k)) :
    cacheLoop hashAt i blocks mask = cacheLoop hashAt' i blocks mask := by
  induction blocks generalizing i mask with
  | nil => rfl
  | cons b blocks ih =>
    cases mask with
    | nil => rfl
    | cons m mask =>
      have hrest : cacheLoop hashAt (i + 1) blocks mask
          = cacheLoop hashAt' (i + 1) blocks mask := by
        apply ih
        intro k hk
        have := h (k + 1) hk
        rwa [Nat.add_left_comm, Nat.add_comm k] at this
      unfold cacheLoop
      rw [hrest]
      by_cases hskip : (b.isNull || !m) = true
      · rw [if_pos hskip, if_pos hskip]
      · -- the block is selected, so its hash is read
        have hm : m = true := by
          cases m with
          | true => rfl
          | false => exact absurd (Bool.or_true _) hskip
        have hi : hashAt i = hashAt' i := h 0 hm
        rw [if_neg hskip, if_neg hskip, hi]

/-- A list that has a hash for every selected block is as good as all hashes. -/
theorem cacheFullBlocksOf_eq {hashes : ℕ → H} {blockHashes : List H} {blocks : List (Block H)}
    {numCached numFull : ℕ} (h : ∀ k, mask.getD k false = true →
      blockHashes[numCached + k]? = some (hashes (numCached + k))) :
    cacheFullBlocksOf blockHashes blocks numCached numFull mask
      = cacheFullBlocks hashes blocks numCached numFull mask := by
  unfold cacheFullBlocksOf cacheFullBlocks cacheFullBlocksAt
  have hloop : ∀ newFull, cacheLoop (fun i => blockHashes[i]?) numCached newFull mask
      = cacheLoop (fun i => some (hashes i)) numCached newFull mask :=
    fun newFull => cacheLoop_congr h
  dsimp only
  rw [hloop]

end Hashes

/-- The list has a hash for every block that ends within the tokens. -/
theorem getElem?_blockHashes {g : SwaGroup} {chain : Option H → List τ → H} {toks : List τ} {i : ℕ}
    (h : (i + 1) * g.blockSize ≤ toks.length) :
    (blockHashes g chain toks)[i]? = some (hashesOf g chain toks i) := by
  have hlt : i < toks.length / g.blockSize := (Nat.le_div_iff_mul_le g.blockSize_pos).mpr h
  unfold blockHashes
  rw [List.getElem?_map, List.getElem?_range hlt]
  rfl

/-! ### The mask -/

section Mask

variable {g : SwaGroup} {blocks : List (Block H)} {T C : ℕ} {tails : List Tail}

/-- No block of a usable tail is null. -/
theorem usable_iff {t : Tail} (hstop : t.stop ≤ blocks.length) :
    t.usable blocks = true ↔ ∀ i, t.contains i = true → blocks[i]? ≠ some .null := by
  unfold Tail.usable
  rw [List.all_eq_true]
  constructor
  · intro h i hi hnull
    have hi' := h i (Tail.mem_indices.mpr hi)
    rw [List.getD_eq_getElem?_getD, hnull] at hi'
    cases hi'
  · intro h i hi
    have hcontains := Tail.mem_indices.mp hi
    have hbounds := hcontains
    rw [Tail.contains, decide_eq_true_eq] at hbounds
    have hlt : i < blocks.length := Nat.lt_of_lt_of_le hbounds.2 hstop
    have hne := h i hcontains
    rw [List.getElem?_eq_getElem hlt] at hne
    rw [List.getD_eq_getElem _ _ hlt]
    cases hb : blocks[i] with
    | null => exact absurd (congrArg some hb) hne
    | alloc h => rfl

/-- The blocks of a final tail are complete. -/
theorem end_le_of_contains {t : Tail} (ht : t ∈ g.finalTails T blocks C) {i : ℕ}
    (hi : t.contains i = true) : (i + 1) * g.blockSize ≤ min C (blocks.length * g.blockSize) := by
  obtain ⟨hit, hhit, rfl, -⟩ := mem_finalTails.mp ht
  obtain ⟨haligned, -, hcomplete⟩ := complete_of_mem hhit
  rw [Tail.contains, decide_eq_true_eq] at hi
  calc (i + 1) * g.blockSize
      ≤ (g.tailOf hit).stop * g.blockSize := Nat.mul_le_mul_right _ hi.2
    _ = hit + g.peek := tailOf_stop_mul haligned
    _ ≤ _ := hcomplete.trans (Nat.div_mul_le_self _ _)

/-- A block of a final tail is allocated. -/
theorem alloc_of_contains {t : Tail} (ht : t ∈ g.finalTails T blocks C) {i : ℕ}
    (hi : t.contains i = true) : ∃ h : Option H, blocks[i]? = some (.alloc h) := by
  have hstop := finalTail_stop_le ht
  have husable : t.usable blocks = true := by
    obtain ⟨hit, -, rfl, husable⟩ := mem_finalTails.mp ht
    exact husable
  have hne := (usable_iff hstop).mp husable i hi
  have hlt : i < blocks.length := by
    rw [Tail.contains, decide_eq_true_eq] at hi
    omega
  rw [List.getElem?_eq_getElem hlt] at hne ⊢
  cases hb : blocks[i] with
  | null => exact absurd (congrArg some hb) hne
  | alloc h => exact ⟨h, rfl⟩

/-- **What the mask selects**: blocks of the tails that are allocated, not hashed yet and
complete. -/
theorem mask_selects (htails : tails = g.finalTails T blocks C) {k : ℕ}
    (hk : (tailMask blocks (lowest tails) (highest tails) tails).getD k false = true) :
    tails.any (·.contains (lowest tails + k)) = true ∧
      blocks[lowest tails + k]? = some (.alloc none) ∧
      (lowest tails + k + 1) * g.blockSize ≤ min C (blocks.length * g.blockSize) := by
  rw [getD_tailMask (fun _ => lowest_le) (fun _ => le_highest), Bool.and_eq_true] at hk
  obtain ⟨hin, hunhashed⟩ := hk
  obtain ⟨t, ht, hcontains⟩ := List.any_eq_true.mp hin
  subst htails
  obtain ⟨h, hb⟩ := alloc_of_contains ht hcontains
  refine ⟨hin, ?_, end_le_of_contains ht hcontains⟩
  rw [List.getD_eq_getElem?_getD, hb] at hunhashed
  rw [hb]
  cases h with
  | none => rfl
  | some h => cases hunhashed

/-- Within the request's tokens the hook never lacks a hash. -/
theorem swaFinalCacheOf_eq {chain : Option H → List τ → H} {toks : List τ}
    (hC : C ≤ toks.length) :
    swaFinalCacheOf g chain toks blocks C
      = swaFinalCache g (hashesOf g chain toks) toks.length blocks C := by
  generalize htails : g.finalTails toks.length blocks C = tails
  unfold swaFinalCacheOf swaFinalCache
  rw [swaFinalCacheWith_call _ _ _ _ _ htails.symm,
    swaFinalCacheWith_call _ _ _ _ _ htails.symm, cacheFullBlocksOf_eq]
  intro k hk
  obtain ⟨-, -, hend⟩ := mask_selects htails.symm hk
  exact getElem?_blockHashes (hend.trans ((Nat.min_le_left _ _).trans hC))

end Mask

/-! ### The table afterwards -/

section Table

variable {hashes : ℕ → H} {selected : ℕ → Bool} {blocks : List (Block H)} {i : ℕ}

/-- An entry is as before, or a selected block got its hash. -/
theorem hashSelected_frame :
    (hashSelected hashes selected blocks)[i]? = blocks[i]? ∨
      selected i = true ∧ blocks[i]? = some (.alloc none) ∧
        (hashSelected hashes selected blocks)[i]? = some (.alloc (some (hashes i))) := by
  rw [getElem?_hashSelected]
  cases hb : blocks[i]? with
  | none => exact .inl rfl
  | some b =>
    cases hs : selected i with
    | false => exact .inl rfl
    | true =>
      cases b with
      | null => exact .inl rfl
      | alloc h =>
        cases h with
        | none => exact .inr ⟨rfl, rfl, rfl⟩
        | some h => exact .inl rfl

/-- A selected block that is allocated has a hash afterwards. -/
theorem hashed_of_selected (hs : selected i = true) (hb : ∃ h, blocks[i]? = some (.alloc h)) :
    ∃ h : H, (hashSelected hashes selected blocks)[i]? = some (.alloc (some h)) := by
  obtain ⟨h, hb⟩ := hb
  rw [getElem?_hashSelected, hb, hs]
  cases h with
  | none => exact ⟨hashes i, rfl⟩
  | some h => exact ⟨h, rfl⟩

end Table

/-- **Only complete, processed tails are hashed.** For any table and any counts: the tails
of all boundaries lie in the table; a boundary is reported exactly when its tail has no
null block; `cache_full_blocks` gets a mask over the hull of the reported tails, and what
it selects is allocated, not hashed, and complete, so that it lies below every token in
flight or to be prefilled again. For a count within the request's tokens, which is what the
free hook passes, the call succeeds: every block of a reported tail is hashed afterwards,
and only blocks of these tails have changed. -/
theorem only_complete_tails_hashed (g : SwaGroup) (chain : Option H → List τ → H) (toks : List τ)
    (blocks : List (Block H)) (C : ℕ) {tails : List Tail}
    (htails : tails = g.finalTails toks.length blocks C) {mask : List Bool}
    (hmask : mask = tailMask blocks (lowest tails) (highest tails) tails) :
    (∀ hit ∈ g.boundaries (min C (blocks.length * g.blockSize)) toks.length,
      (g.tailOf hit).stop ≤ blocks.length) ∧
    (∀ hit, hit ∈ tails.map Tail.hit ↔
      hit ∈ g.boundaries (min C (blocks.length * g.blockSize)) toks.length ∧
        ∀ i, (g.tailOf hit).contains i = true → blocks[i]? ≠ some .null) ∧
    swaFinalCacheOf g chain toks blocks C =
      (if mask.any id then
        (fun blocks => (tails.map Tail.hit, blocks)) <$>
          cacheFullBlocksOf (blockHashes g chain toks) blocks (lowest tails) (highest tails) mask
      else .ok (tails.map Tail.hit, blocks)) ∧
    mask.length = highest tails - lowest tails ∧ highest tails ≤ blocks.length ∧
    (∀ k, mask[k]? = some true →
      tails.any (·.contains (lowest tails + k)) = true ∧
      blocks[lowest tails + k]? = some (.alloc none) ∧
      (lowest tails + k + 1) * g.blockSize ≤ min C (blocks.length * g.blockSize)) ∧
    (∀ numComputed numInFlight numPlaceholders numReprefillable,
      swaFinalWindowComputed numComputed numInFlight numPlaceholders toks.length numReprefillable
        = C → C + numReprefillable + numInFlight ≤ numComputed ∧ C ≤ toks.length) ∧
    (C ≤ toks.length → ∃ final, swaFinalCacheOf g chain toks blocks C
        = .ok (tails.map Tail.hit, final) ∧ final.length = blocks.length ∧
      (∀ i, tails.any (·.contains i) = true → ∃ h, final[i]? = some (.alloc (some h))) ∧
      ∀ i, final[i]? = blocks[i]? ∨
        tails.any (·.contains i) = true ∧ blocks[i]? = some (.alloc none) ∧
          final[i]? = some (.alloc (some (hashesOf g chain toks i)))) := by
  subst hmask
  refine ⟨fun hit => boundary_stop_le, ?_, swaFinalCacheWith_call _ _ _ _ _ htails,
    length_tailMask _ _ _, ?_, ?_, ?_, ?_⟩
  · intro hit
    rw [htails, List.mem_map]
    constructor
    · rintro ⟨t, ht, rfl⟩
      obtain ⟨hit, hhit, rfl, husable⟩ := mem_finalTails.mp ht
      exact ⟨hhit, (usable_iff (boundary_stop_le hhit)).mp husable⟩
    · rintro ⟨hhit, hnull⟩
      have husable := (usable_iff (boundary_stop_le hhit)).mpr hnull
      exact ⟨g.tailOf hit, mem_finalTails.mpr ⟨hit, hhit, rfl, husable⟩, rfl⟩
  · apply highest_le
    intro t ht
    exact finalTail_stop_le (htails ▸ ht)
  · intro k hk
    apply mask_selects htails
    rw [List.getD_eq_getElem?_getD, hk]
    rfl
  · intro numComputed numInFlight numPlaceholders numReprefillable hC
    exact swaFinalWindowComputed_le hC
  · intro hC
    refine ⟨_, ?_, length_hashSelected _ _, ?_, fun i => hashSelected_frame⟩
    -- every hash that the mask asks for is there
    · rw [swaFinalCacheOf_eq hC, swaFinalCache_eq, ← htails]
    · intro i hi
      obtain ⟨t, ht, hcontains⟩ := List.any_eq_true.mp hi
      exact hashed_of_selected hi (alloc_of_contains (htails ▸ ht) hcontains)

/-- The tails of `final_checkpoints_kept_small`'s request: both checkpoints are reported. -/
theorem only_complete_tails_hashed_small :
    ∃ final, swaFinalCacheOf smallGroup (fun p l => p.getD 0 + l.sum) (List.range 8)
        (List.replicate 4 (.alloc none)) 8
        = .ok ((smallGroup.finalTails 8 (List.replicate 4 (.alloc none) : List (Block ℕ)) 8).map
            Tail.hit, final) ∧ final.length = 4 := by
  obtain ⟨-, -, -, -, -, -, -, h⟩ := only_complete_tails_hashed smallGroup
    (fun p l => p.getD 0 + l.sum) (List.range 8) (List.replicate 4 (.alloc none)) 8 rfl rfl
  obtain ⟨final, hcall, hlen, -⟩ := h (by decide)
  exact ⟨final, hcall, hlen⟩

/-- **Past the request's tokens there is no hash.** A request of two tokens with four
allocated blocks and a count of eight: checkpoint `6` is complete, and hashing its tail
runs into the end of the request's hashes. -/
theorem final_tails_past_tokens :
    smallGroup.boundaries (min 8 (4 * smallGroup.blockSize)) 2 = [6] ∧
      swaFinalCacheOf smallGroup (fun p l => p.getD 0 + l.sum) [7, 8]
        (List.replicate 4 (.alloc none) : List (Block ℕ)) 8 = .error "IndexError" := by
  constructor
  · decide
  · decide

end SwaFinal
end Dsv41Overlay
