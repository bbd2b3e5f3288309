import Dsv41Overlay.Experts.FatBlock
import Mathlib.Data.List.Flatten
import Mathlib.Data.Nat.Bitwise

/-!
# The stages of the pipeline

A stage holds the chunks of one K tile. Its places are the `Slot`s of a stage: `word` says at
which words of shared memory the chunk of a slot lies, with the swizzle of A, and `locate` finds
the slot of a word. A thread loads the slots whose number it has modulo 256 (`loadStage_eq`).
-/

namespace Dsv41Overlay.Experts

open Cta

universe u

variable {V : Type u}

/-! ### The swizzle -/

theorem fmSwz_lt (row : ℕ) {chunk : ℕ} (h : chunk < 4) : fmSwz row chunk < 4 := by
  have hand : (row >>> 1) &&& 3 < 2 ^ 2 :=
    Nat.lt_of_le_of_lt Nat.and_le_right (by decide)
  exact Nat.xor_lt_two_pow (n := 2) h hand

/-- **The reader undoes the swizzle.** -/
theorem fmSwz_fmSwz (row chunk : ℕ) : fmSwz row (fmSwz row chunk) = chunk := by
  rw [fmSwz, fmSwz, Nat.xor_assoc, Nat.xor_self, Nat.xor_zero]

namespace FmConfig

variable (c : FmConfig)

/-- Where chunk `n` of a stage of A lies in the stage; and which chunk lies there. -/
def shift (n : ℕ) : ℕ := 4 * (n / 4) + fmSwz (n / 4 % c.tileM) (n % 4)

variable {c}

theorem shift_div (n : ℕ) : c.shift n / 4 = n / 4 := by
  have := fmSwz_lt (n / 4 % c.tileM) (Nat.mod_lt n (show 0 < 4 by decide))
  rw [shift]
  omega

theorem shift_mod (n : ℕ) : c.shift n % 4 = fmSwz (n / 4 % c.tileM) (n % 4) := by
  have := fmSwz_lt (n / 4 % c.tileM) (Nat.mod_lt n (show 0 < 4 by decide))
  rw [shift]
  omega

theorem shift_shift (n : ℕ) : c.shift (c.shift n) = n := by
  rw [shift, shift_div, shift_mod, fmSwz_fmSwz]
  omega

theorem shift_lt {n : ℕ} (h : n < c.aChunks) : c.shift n < c.aChunks := by
  have hdiv := shift_div (c := c) n
  simp only [aChunks] at h ⊢
  omega

/-! ### Slots -/

/-- A chunk of a stage, of A or of B. -/
inductive Slot
  | a (n : ℕ)
  | b (n : ℕ)
  deriving DecidableEq

/-- The number of a slot, by which it is loaded. -/
def Slot.number : Slot → ℕ
  | .a n | .b n => n

variable (c) in
/-- The slot is one of a stage. -/
def Valid : Slot → Prop
  | .a n => n < c.aChunks
  | .b n => n < c.bChunks

variable (c) in
/-- Word `w` of a slot of a stage. -/
def word (stage : ℕ) : Slot → ℕ → ℕ
  | .a n, w => 4 * (stage * c.aChunks + c.shift n) + w
  | .b n, w => 4 * (c.bStage stage + n) + w

variable (c) in
/-- The stage and the slot of a word, behind the stages none. -/
def locate (x : ℕ) : Option (ℕ × Slot) :=
  let n := x / 4
  if n < 4 * c.aChunks then some (n / c.aChunks, .a (c.shift (n % c.aChunks)))
  else if n < 4 * c.aChunks + 4 * c.bChunks then
    some ((n - 4 * c.aChunks) / c.bChunks, .b ((n - 4 * c.aChunks) % c.bChunks))
  else none

theorem word_mod (stage : ℕ) (sl : Slot) {w : ℕ} (hw : w < 4) : c.word stage sl w % 4 = w := by
  cases sl <;> simp only [word] <;> omega

theorem mul_add_lt {s size n : ℕ} (hs : s < 4) (hn : n < size) :
    s * size + n < 4 * size := by
  have : s * size + size ≤ 4 * size := by
    rw [← Nat.succ_mul]
    exact Nat.mul_le_mul_right size hs
  omega

theorem mul_add_div_mod {s size n : ℕ} (hn : n < size) :
    (s * size + n) / size = s ∧ (s * size + n) % size = n := by
  have hpos : 0 < size := Nat.lt_of_le_of_lt (Nat.zero_le n) hn
  rw [Nat.mul_comm]
  exact ⟨by rw [Nat.mul_add_div hpos, Nat.div_eq_of_lt hn, Nat.add_zero],
    by rw [Nat.mul_add_mod, Nat.mod_eq_of_lt hn]⟩

/-- **A word belongs to one slot of one stage.** -/
theorem locate_word {stage w : ℕ} {sl : Slot} (hstage : stage < 4) (hsl : c.Valid sl) (hw : w < 4) :
    c.locate (c.word stage sl w) = some (stage, sl) := by
  -- the two matrices lie in separate areas, so each kind of slot is found by its own test
  cases sl with
  | a n =>
    have hn : c.shift n < c.aChunks := shift_lt hsl
    obtain ⟨hdiv, hmod⟩ := mul_add_div_mod (s := stage) hn
    have hword : c.word stage (.a n) w / 4 = stage * c.aChunks + c.shift n := by
      rw [word]
      omega
    simp only [locate, hword]
    rw [if_pos (mul_add_lt hstage hn), hdiv, hmod, shift_shift]
  | b n =>
    have hn : n < c.bChunks := hsl
    obtain ⟨hdiv, hmod⟩ := mul_add_div_mod (s := stage) hn
    have hlt := mul_add_lt hstage hn
    have hword : c.word stage (.b n) w / 4 = 4 * c.aChunks + (stage * c.bChunks + n) := by
      rw [word, bStage]
      omega
    simp only [locate, hword]
    rw [if_neg (by omega), if_pos (by omega), Nat.add_sub_cancel_left, hdiv, hmod]

/-- The word of a slot that it was found in. -/
theorem word_of_locate {x stage : ℕ} {sl : Slot} (h : c.locate x = some (stage, sl)) :
    stage < 4 ∧ c.Valid sl ∧ x = c.word stage sl (x % 4) := by
  simp only [locate] at h
  -- below the area of the first matrix ends
  split at h
  · rename_i hlt
    obtain ⟨rfl, rfl⟩ := Prod.mk.inj (Option.some.inj h)
    have hpos : 0 < c.aChunks := by
      by_contra h0
      simp only [Nat.eq_zero_of_not_pos h0, Nat.mul_zero, Nat.not_lt_zero] at hlt
    have hmod := Nat.mod_lt (x / 4) hpos
    have hdm := Nat.div_add_mod' (x / 4) c.aChunks
    refine ⟨(Nat.div_lt_iff_lt_mul hpos).mpr hlt, shift_lt hmod, ?_⟩
    rw [word, shift_shift, hdm]
    omega
  -- then the area of the second
  split at h
  · rename_i hge hlt
    obtain ⟨rfl, rfl⟩ := Prod.mk.inj (Option.some.inj h)
    have hpos : 0 < c.bChunks := by
      by_contra h0
      simp only [Nat.eq_zero_of_not_pos h0, Nat.mul_zero, Nat.add_zero] at hlt
      exact hge hlt
    have hmod := Nat.mod_lt (x / 4 - 4 * c.aChunks) hpos
    have hdm := Nat.div_add_mod' (x / 4 - 4 * c.aChunks) c.bChunks
    refine ⟨(Nat.div_lt_iff_lt_mul hpos).mpr (by omega), hmod, ?_⟩
    rw [word, bStage, Nat.add_assoc, hdm]
    omega
  · exact nomatch h

/-- A chunk of a row of A, where a thread copies it to and where the lanes read it. -/
theorem word_a {s b row chunk w : ℕ} (hrow : row < c.tileM) (hchunk : chunk < 4) :
    c.word s (.a (b * (c.tileM * 4) + row * 4 + chunk)) w =
      4 * c.aChunk s b row chunk + w := by
  -- the number of the chunk splits into block, row and place in the row
  have hdiv : (b * (c.tileM * 4) + row * 4 + chunk) / 4 = b * c.tileM + row := by
    rw [← Nat.mul_assoc]
    omega
  -- the place in the row is swizzled by the row
  have hmod : (b * (c.tileM * 4) + row * 4 + chunk) % 4 = chunk := by
    rw [← Nat.mul_assoc]
    omega
  have hshift : c.shift (b * (c.tileM * 4) + row * 4 + chunk) =
      b * (c.tileM * 4) + row * 4 + fmSwz row chunk := by
    rw [shift, hdiv, hmod, (mul_add_div_mod hrow).2, Nat.mul_add, Nat.mul_left_comm,
      Nat.mul_comm 4 c.tileM, Nat.mul_comm 4 row]
  rw [word, hshift, aChunk]
  omega

/-- A chunk of B, where a thread copies it to. -/
theorem word_b (stage n w : ℕ) :
    c.word stage (.b n) w =
      4 * (c.bTile stage (n / (2 * 8 * c.ch)) (n % (2 * 8 * c.ch) / (8 * c.ch))
        (n % (2 * 8 * c.ch) / c.ch % 8) + n % (2 * 8 * c.ch) % c.ch) + w := by
  -- the number of the chunk splits by stage row, half, fragment and chunk
  have hs := Nat.div_add_mod n (2 * 8 * c.ch)
  have hj := Nat.div_add_mod (n % (2 * 8 * c.ch)) (8 * c.ch)
  have hnb := Nat.mod_mul (a := c.ch) (b := 8) (x := n % (2 * 8 * c.ch))
  rw [Nat.mul_comm c.ch 8, Nat.mul_comm c.ch] at hnb
  have hout : (n / (2 * 8 * c.ch) * 2 + n % (2 * 8 * c.ch) / (8 * c.ch)) * (8 * c.ch) =
      2 * 8 * c.ch * (n / (2 * 8 * c.ch)) +
        8 * c.ch * (n % (2 * 8 * c.ch) / (8 * c.ch)) := by
    rw [Nat.add_mul, Nat.mul_comm (n % (2 * 8 * c.ch) / (8 * c.ch)), Nat.mul_assoc,
      Nat.mul_comm (n / (2 * 8 * c.ch)), ← Nat.mul_assoc 2 8]
  rw [word, bTile, hout]
  omega

end FmConfig

namespace FmKernel

open FmConfig

variable (κ : FmKernel V) (g : FmSegment κ.toFmConfig V) (t : FmTid)

/-! ### What a thread loads -/

/-- The row of the source from which a row of a stage is loaded. -/
def srcRow (row : ℕ) : ℕ := g.row0 + if row < g.rows then row else g.rows - 1

/-- The words of the chunk of K tile `kt` that belongs in a slot. -/
def tileWord (kt : ℕ) : Slot → ℕ → V
  | .a n => κ.a (n / (κ.tileM * 4)) (κ.srcRow g (n % (κ.tileM * 4) / 4))
      (kt * 4 + n % (κ.tileM * 4) % 4)
  | .b n =>
    let s := n / (2 * 8 * κ.ch)
    let r := n % (2 * 8 * κ.ch)
    g.packed s ((kt * 2 + r / (8 * κ.ch)) * κ.tilesN + κ.nBlock0 + s * κ.nbStride + r / κ.ch % 8)
      (r % κ.ch)

/-- The numbers below `n` that a thread has modulo 256. -/
def numbers (n : ℕ) : List ℕ :=
  ((List.range ((n + 256 - 1) / 256)).map fun i => i * 256 + t.val).filter fun c => decide (c < n)

/-- The slots that a thread loads. -/
def slotsOf : List Slot := (numbers t κ.aChunks).map .a ++ (numbers t κ.bChunks).map .b

/-- The words of a slot, with their values. -/
def slotWords (stage kt : ℕ) (sl : Slot) : List (ℕ × V) :=
  (List.range 4).map fun w => (κ.word stage sl w, κ.tileWord g kt sl w)

/-- The words that a thread copies for a stage. -/
def loads (stage kt : ℕ) : List (ℕ × V) := (κ.slotsOf t).flatMap (κ.slotWords g stage kt)

variable {κ g t}

theorem mem_numbers {n c : ℕ} : c ∈ numbers t n ↔ c < n ∧ c % 256 = t.val := by
  have ht := t.isLt
  rw [numbers, List.mem_filter, List.mem_map, decide_eq_true_eq]
  constructor
  · rintro ⟨⟨i, -, rfl⟩, hlt⟩
    exact ⟨hlt, by omega⟩
  · rintro ⟨hlt, hmod⟩
    exact ⟨⟨c / 256, List.mem_range.mpr (by omega), by omega⟩, hlt⟩

theorem nodup_numbers (n : ℕ) : (numbers t n).Nodup :=
  ((List.nodup_map_iff_inj_on List.nodup_range).mpr fun i _ j _ h => by omega).filter _

theorem mem_slotsOf {sl : Slot} :
    sl ∈ κ.slotsOf t ↔ κ.Valid sl ∧ sl.number % 256 = t.val := by
  cases sl <;> simp [slotsOf, mem_numbers, Valid, Slot.number]

theorem nodup_slotsOf : (κ.slotsOf t).Nodup := by
  refine List.Nodup.append ?_ ?_ ?_
  · exact (nodup_numbers _).map fun _ _ h => Slot.a.inj h
  · exact (nodup_numbers _).map fun _ _ h => Slot.b.inj h
  · intro sl ha hb
    obtain ⟨n, -, rfl⟩ := List.mem_map.mp ha
    obtain ⟨m, -, h⟩ := List.mem_map.mp hb
    exact nomatch h

theorem flatMap_filter_map {α β : Type*} (f : ℕ → ℕ) (n : ℕ) (h : ℕ → β) (w : β → List α)
    (l : List ℕ) :
    (l.flatMap fun i => if f i < n then w (h (f i)) else []) =
      (((l.map f).filter fun c => decide (c < n)).map h).flatMap w := by
  induction l with
  | nil => rfl
  | cons i l ih =>
    rw [List.flatMap_cons, ih, List.map_cons]
    by_cases hi : f i < n
    · rw [if_pos hi, List.filter_cons, if_pos (decide_eq_true hi), List.map_cons,
        List.flatMap_cons]
    · rw [if_neg hi, List.filter_cons, if_neg (by simpa using hi), List.nil_append]

/-- What a thread copies of A. -/
theorem loadA_eq (stage kt : ℕ) (k : FmProg κ.toFmConfig V) :
    κ.loadA g t stage kt k =
      .copies (((numbers t κ.aChunks).map Slot.a).flatMap (κ.slotWords g stage kt)) k := by
  -- both sides run over the chunk numbers of this thread
  rw [numbers, ← flatMap_filter_map, ← Prog.each_copies, loadA]
  congr 1
  funext i k
  by_cases hlt : i * 256 + t.val < κ.aChunks
  swap
  · simp only [if_neg hlt]
    rfl
  simp only [if_pos hlt]
  -- the chunk of the source that belongs at this place
  generalize i * 256 + t.val = n at hlt ⊢
  have hdm : n / (κ.tileM * 4) * (κ.tileM * 4) + n % (κ.tileM * 4) / 4 * 4 +
      n % (κ.tileM * 4) % 4 = n := by
    have h₁ := Nat.div_add_mod' n (κ.tileM * 4)
    have h₂ := Nat.div_add_mod' (n % (κ.tileM * 4)) 4
    omega
  have hrow : n % (κ.tileM * 4) / 4 < κ.tileM := by
    have hpos : 0 < κ.tileM * 4 := by
      by_contra h0
      have h0 := Nat.eq_zero_of_not_pos h0
      rw [aChunks, Nat.mul_assoc, h0, Nat.mul_zero] at hlt
      exact Nat.not_lt_zero _ hlt
    have := Nat.mod_lt n hpos
    omega
  unfold cpAsync
  refine congrArg (Prog.copies · k) (List.map_congr_left fun w _ => Prod.ext ?_ ?_)
  · have hword := word_a (c := κ.toFmConfig) (s := stage) (b := n / (κ.tileM * 4)) (w := w) hrow
      (Nat.mod_lt (n % (κ.tileM * 4)) (show 0 < 4 by decide))
    rw [hdm] at hword
    rw [hword, Nat.shiftRight_eq_div_pow, Nat.and_two_pow_sub_one_eq_mod _ 2]
  · simp only [tileWord, srcRow, Nat.shiftRight_eq_div_pow, Nat.and_two_pow_sub_one_eq_mod _ 2]

/-- What a thread copies of B. -/
theorem loadB_eq (stage kt : ℕ) (k : FmProg κ.toFmConfig V) :
    κ.loadB g t stage kt k =
      .copies (((numbers t κ.bChunks).map Slot.b).flatMap (κ.slotWords g stage kt)) k := by
  rw [numbers, ← flatMap_filter_map, ← Prog.each_copies, loadB]
  congr 1
  funext i k
  -- both sides run over the chunk numbers of this thread
  by_cases hlt : i * 256 + t.val < κ.bChunks
  swap
  · simp only [if_neg hlt]
    rfl
  simp only [if_pos hlt]
  unfold cpAsync
  refine congrArg (Prog.copies · k) (List.map_congr_left fun w _ => Prod.ext ?_ rfl)
  exact (word_b _ _ _).symm

/-- **A thread loads its slots**, one after the other. -/
theorem loadStage_eq (stage kt : ℕ) (k : FmProg κ.toFmConfig V) :
    κ.loadStage g t stage kt k = .copies (κ.loads g t stage kt) k := by
  rw [loadStage, loadA_eq, loadB_eq, ← Prog.copies_append, loads, slotsOf, List.flatMap_append]

/-- The words that a thread copies lie in its own slots. -/
theorem mem_loads {stage kt : ℕ} {x : ℕ} {v : V} (hstage : stage < 4) :
    (x, v) ∈ κ.loads g t stage kt ↔
      ∃ sl, κ.locate x = some (stage, sl) ∧ sl.number % 256 = t.val ∧
        v = κ.tileWord g kt sl (x % 4) := by
  simp only [loads, slotWords, List.mem_flatMap, List.mem_map, List.mem_range, mem_slotsOf]
  -- a copied word is found where its slot puts it, and a place determines the slot
  constructor
  · rintro ⟨sl, ⟨hvalid, ht⟩, w, hw, heq⟩
    obtain ⟨rfl, rfl⟩ := Prod.mk.inj heq
    exact ⟨sl, locate_word hstage hvalid hw, ht, by rw [word_mod stage sl hw]⟩
  · rintro ⟨sl, hloc, ht, rfl⟩
    obtain ⟨-, hvalid, hx⟩ := word_of_locate hloc
    exact ⟨sl, ⟨hvalid, ht⟩, x % 4, Nat.mod_lt _ (by decide), Prod.ext hx.symm rfl⟩

theorem mem_map_loads {stage kt : ℕ} {x : ℕ} (hstage : stage < 4) :
    x ∈ (κ.loads g t stage kt).map Prod.fst ↔
      ∃ sl, κ.locate x = some (stage, sl) ∧ sl.number % 256 = t.val := by
  rw [List.mem_map]
  constructor
  · rintro ⟨⟨x, v⟩, hxv, rfl⟩
    obtain ⟨sl, hloc, ht, -⟩ := (mem_loads hstage).mp hxv
    exact ⟨sl, hloc, ht⟩
  · rintro ⟨sl, hloc, ht⟩
    exact ⟨(x, κ.tileWord g kt sl (x % 4)), (mem_loads hstage).mpr ⟨sl, hloc, ht, rfl⟩, rfl⟩

/-- No word is copied twice. -/
theorem nodup_map_loads {stage : ℕ} (hstage : stage < 4) (kt : ℕ) :
    ((κ.loads g t stage kt).map Prod.fst).Nodup := by
  have hmap : (κ.loads g t stage kt).map Prod.fst =
      (κ.slotsOf t).flatMap fun sl => (List.range 4).map (κ.word stage sl) := by
    rw [loads, List.map_flatMap]
    exact List.flatMap_congr fun sl _ => List.map_map
  -- the words of one slot differ in their last two bits, slots differ by their place
  rw [hmap, List.nodup_flatMap]
  refine ⟨fun sl hsl => ?_, ?_⟩
  · refine (List.nodup_map_iff_inj_on List.nodup_range).mpr fun w hw w' hw' h => ?_
    have := congrArg (· % 4) h
    simpa only [word_mod stage sl (List.mem_range.mp hw),
      word_mod stage sl (List.mem_range.mp hw')] using this
  · refine nodup_slotsOf.imp_of_mem fun {sl sl'} hsl hsl' hne x hx hx' => hne ?_
    obtain ⟨w, hw, rfl⟩ := List.mem_map.mp hx
    obtain ⟨w', hw', h⟩ := List.mem_map.mp hx'
    have h₁ := locate_word hstage (mem_slotsOf.mp hsl).1 (List.mem_range.mp hw)
    have h₂ := locate_word hstage (mem_slotsOf.mp hsl').1 (List.mem_range.mp hw')
    rw [h, h₁] at h₂
    exact (Prod.mk.inj (Option.some.inj h₂)).2

end FmKernel

end Dsv41Overlay.Experts
