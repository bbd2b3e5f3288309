import Dsv41Overlay.Lib.StrongTest
import Mathlib.Data.Nat.Nth
import Mathlib.Data.Nat.Prime.Infinite
import Mathlib.Order.Filter.AtTopBot.Basic
import Mathlib.Tactic.IntervalCases
import Mathlib.Tactic.NormNum.Prime

/-!
# The head layout of the Engram layers

A head's bucket size is a prime that no head before it has, in its own layer or
in an earlier one: `find_next_prime` counts up from the head before, every n-gram
starts again below the vocabulary size, and the set of sizes taken so far is
shared by all layers.

The layout is therefore one enumeration. Write `size 0 < size 1 < …` for the
numbers from the vocabulary size on that `is_prime` accepts. The sizes taken are
always an initial segment of it, so that whatever head the search starts from, it
ends at the next one (`findNextPrime_next`), and the heads of all layers
are `size 0`, `size 1`, … in turn (`walk_eq`). That there is always a next one is the
completeness of the strong test: `is_prime` accepts every prime but 61
(`isPrime_of_prime`), which is a base of the test and divides itself. A search that
passes 61 steps over a prime (`findNextPrime_skips_only_base`).

The searches are loops without a bound, so they are modelled with fuel, and the
statements say what they return for all but finitely much of it.
-/

namespace Dsv41Overlay.Engram

open Filter

/-! ### The source -/

/-- The primes tried by division. -/
def smallPrimes : List ℕ := [2, 3, 5, 7, 11, 13, 17, 19, 23, 29, 31, 37]

/-- The bases of the strong test. -/
def bases : List ℕ := [2, 7, 61]

/-- `is_prime`. -/
def isPrime (n : ℕ) : Bool :=
  if n < 2 then false
  else
    match smallPrimes.find? fun p => n % p == 0 with
    | some p => n == p
    | none =>
      let (d, r) := StrongTest.splitTwos (n - 1) (n - 1) 0
      bases.all (StrongTest.passes n d r)

/-- The loop of `find_next_prime`. -/
def nextLoop : ℕ → ℕ → Finset ℕ → Option ℕ
  | 0, _, _ => none
  | fuel + 1, candidate, seen =>
    if !isPrime candidate ∨ candidate ∈ seen then nextLoop fuel (candidate + 1) seen
    else some candidate

/-- `find_next_prime`. -/
def findNextPrime (fuel start : ℕ) (seen : Finset ℕ) : Option ℕ :=
  nextLoop fuel (start + 1) seen

/-- The heads of one n-gram, from `current` on: their sizes, and what is taken
afterwards. -/
def headLoop (fuel : ℕ) : ℕ → ℕ → Finset ℕ → Option (List ℕ × Finset ℕ)
  | 0, _, seen => some ([], seen)
  | heads + 1, current, seen => do
    let current ← findNextPrime fuel current seen
    let (sizes, seen) ← headLoop fuel heads current (insert current seen)
    some (current :: sizes, seen)

/-- The n-grams of one layer. -/
def ngramLoop (fuel vocabSize nHeads : ℕ) : ℕ → Finset ℕ → Option (List ℕ × Finset ℕ)
  | 0, seen => some ([], seen)
  | ngrams + 1, seen => do
    let (sizes, seen) ← headLoop fuel nHeads (vocabSize - 1) seen
    let (rest, seen) ← ngramLoop fuel vocabSize nHeads ngrams seen
    some (sizes ++ rest, seen)

/-- The fields of the text config that the layout reads. -/
structure TextConfig where
  engramVocabSize : ℕ
  engramNHeads : ℕ
  engramMaxNgramSize : ℕ
deriving DecidableEq, Repr

/-- `head_sizes` with the shared set: the tuple, and what is taken afterwards. -/
def headSizes (fuel : ℕ) (cfg : TextConfig) (seen : Finset ℕ) : Option (List ℕ × Finset ℕ) :=
  ngramLoop fuel cfg.engramVocabSize cfg.engramNHeads (cfg.engramMaxNgramSize - 1) seen

/-- The loop of `layer_head_sizes_from_config`. -/
def layerLoop (fuel : ℕ) (cfg : TextConfig) : ℕ → Finset ℕ → List ℕ → Option (List ℕ)
  | 0, _, last => some last
  | layers + 1, seen, _ => do
    let (last, seen) ← headSizes fuel cfg seen
    layerLoop fuel cfg layers seen last

/-- `layer_head_sizes_from_config`. -/
def layerHeadSizesFromConfig (fuel : ℕ) (cfg : TextConfig) (layerIndex : ℕ) : Option (List ℕ) :=
  layerLoop fuel cfg (layerIndex + 1) ∅ []

/-- The single walk over all layers with one shared set: every tuple in order. -/
def walk (fuel : ℕ) (cfg : TextConfig) : ℕ → Finset ℕ → Option (List (List ℕ))
  | 0, _ => some []
  | layers + 1, seen => do
    let (sizes, seen) ← headSizes fuel cfg seen
    let rest ← walk fuel cfg layers seen
    some (sizes :: rest)

/-- What `_layer_id_from_embeddings` may raise: no layer has so many rows, or the
two lists of the config differ in length. -/
inductive LayerError
  | noLayer (numEmbeddings : ℕ)
  | lengths
  deriving DecidableEq, Repr

/-- `_layer_id_from_embeddings`, over the ids and the row counts of the config. -/
def layerIdFromEmbeddings (numEmbeddings : ℕ) : List ℤ → List ℕ → Except LayerError ℤ
  | [], [] => .error (.noLayer numEmbeddings)
  | layerId :: ids, n :: rows =>
    if n = numEmbeddings then .ok layerId else layerIdFromEmbeddings numEmbeddings ids rows
  | [], _ :: _ => .error .lengths
  | _ :: _, [] => .error .lengths

/-! ### What `is_prime` accepts -/

theorem prime_of_mem_smallPrimes {p : ℕ} (h : p ∈ smallPrimes) : p.Prime := by
  simp only [smallPrimes, List.mem_cons, List.not_mem_nil, or_false] at h
  rcases h with rfl | rfl | rfl | rfl | rfl | rfl | rfl | rfl | rfl | rfl | rfl | rfl <;> norm_num

theorem prime_of_mem_bases {a : ℕ} (h : a ∈ bases) : a.Prime := by
  simp only [bases, List.mem_cons, List.not_mem_nil, or_false] at h
  rcases h with rfl | rfl | rfl <;> norm_num

/-- The trial divisor that divides a prime is the prime itself. -/
theorem eq_of_trial {p q : ℕ} (hp : p.Prime) (hq : q ∈ smallPrimes) (hmod : (p % q == 0) = true) :
    q = p :=
  (Nat.prime_dvd_prime_iff_eq (prime_of_mem_smallPrimes hq) hp).mp
    (Nat.dvd_of_mod_eq_zero (eq_of_beq hmod))

/-- **Every prime but 61 is accepted.** The trial division returns at a small prime. Any
other prime is not divided by the bases 2 and 7, which are small, and by 61 only if it
is 61. -/
theorem isPrime_of_prime {p : ℕ} (hp : p.Prime) (hne : p ≠ 61) : isPrime p = true := by
  unfold isPrime
  rw [if_neg (Nat.not_lt.mpr hp.two_le)]
  -- a trial divisor of a prime is the prime itself
  cases hfind : smallPrimes.find? fun q => p % q == 0 with
  | some q =>
    have hmod := List.find?_some (p := fun q => p % q == 0) hfind
    exact beq_iff_eq.mpr (eq_of_trial hp (List.mem_of_find?_eq_some hfind) hmod).symm
  | none =>
    -- no trial divisor, so the prime is not a small one
    have hbig : p ∉ smallPrimes := by
      intro hmem
      have hmod := List.find?_eq_none.mp hfind p hmem
      rw [Nat.mod_self] at hmod
      exact hmod rfl
    -- nor is it one of the bases, since 61 is excluded
    have hbase : ∀ a ∈ bases, ¬ p ∣ a := by
      intro a ha hdvd
      have heq := (Nat.prime_dvd_prime_iff_eq hp (prime_of_mem_bases ha)).mp hdvd
      subst heq
      simp only [bases, List.mem_cons, List.not_mem_nil, or_false] at ha
      rcases ha with rfl | rfl | rfl
      · exact hbig (by decide)
      · exact hbig (by decide)
      · exact hne rfl
    have hodd : p % 2 = 1 := hp.eq_two_or_odd.resolve_left fun h => hbig (h ▸ by decide)
    have htwo := hp.two_le
    apply List.all_eq_true.mpr
    intro a ha
    apply StrongTest.passes_of_prime hp
    · exact StrongTest.splitTwos_pos (by omega) (by omega)
    · rw [StrongTest.splitTwos_mul, pow_zero, Nat.mul_one]
    · exact hbase a ha

/-- The base 61 is a multiple of the prime 61: its powers are `0`. -/
theorem isPrime_base : isPrime 61 = false := by decide

theorem isPrime_iff_of_prime {p : ℕ} (hp : p.Prime) : isPrime p = true ↔ p ≠ 61 := by
  constructor
  · rintro h rfl
    rw [isPrime_base] at h
    cases h
  · exact isPrime_of_prime hp

/-- The primes below 41 are those tried by division. -/
theorem mem_smallPrimes_of_lt {p : ℕ} (hp : p.Prime) (hlt : p < 41) : p ∈ smallPrimes := by
  interval_cases p <;> first | decide | (exfalso; revert hp; norm_num)

/-- **Below the square of 41 the trial division decides**: what is accepted there is prime. -/
theorem prime_of_isPrime {n : ℕ} (h : isPrime n = true) (hlt : n < 41 * 41) : n.Prime := by
  unfold isPrime at h
  split at h
  · cases h
  · next htwo =>
    -- a trial divisor decides alone
    cases hfind : smallPrimes.find? fun q => n % q == 0 with
    | some q =>
      rw [hfind] at h
      have hq : n = q := beq_iff_eq.mp h
      exact hq ▸ prime_of_mem_smallPrimes (List.mem_of_find?_eq_some hfind)
    | none =>
      -- a composite number has a prime factor below its square root
      by_contra hcomp
      have hmin : n.minFac.Prime := Nat.minFac_prime (by omega)
      have hsq : n.minFac ^ 2 ≤ n := Nat.minFac_sq_le_self (by omega) hcomp
      have hsmall : n.minFac < 41 := by nlinarith
      have hmod := List.find?_eq_none.mp hfind _ (mem_smallPrimes_of_lt hmin hsmall)
      exact hmod (beq_iff_eq.mpr (Nat.mod_eq_zero_of_dvd n.minFac_dvd))

/-- The sizes a layout may use. -/
def Usable (cfg : TextConfig) (n : ℕ) : Prop :=
  cfg.engramVocabSize ≤ n ∧ isPrime n = true

/-- There is always a next usable size. -/
theorem infinite_usable (cfg : TextConfig) : (Set.ofPred (Usable cfg)).Infinite := by
  rw [Set.infinite_iff_exists_gt]
  intro a
  obtain ⟨p, hle, hp⟩ := Nat.exists_infinite_primes (max (a + 1) (max 62 cfg.engramVocabSize))
  refine ⟨p, ⟨?_, isPrime_of_prime hp ?_⟩, ?_⟩ <;> omega

/-- The enumeration of the usable sizes. -/
noncomputable def size (cfg : TextConfig) (k : ℕ) : ℕ := Nat.nth (Usable cfg) k

/-- The first `k` usable sizes: what the first `k` heads take. -/
noncomputable def taken (cfg : TextConfig) (k : ℕ) : Finset ℕ :=
  (Finset.range k).image (size cfg)

section Enumeration

variable (cfg : TextConfig)

theorem size_usable (k : ℕ) : Usable cfg (size cfg k) :=
  Nat.nth_mem_of_infinite (infinite_usable cfg) k

theorem size_strictMono : StrictMono (size cfg) :=
  Nat.nth_strictMono (infinite_usable cfg)

/-- The usable numbers below `size k` are the earlier sizes. -/
theorem mem_taken_of_lt {n k : ℕ} (hn : Usable cfg n) (hlt : n < size cfg k) :
    n ∈ taken cfg k := by
  obtain ⟨j, rfl⟩ : n ∈ Set.range (size cfg) := by
    unfold size
    rw [Nat.range_nth_of_infinite (infinite_usable cfg)]
    exact hn
  exact Finset.mem_image_of_mem _ (Finset.mem_range.mpr ((size_strictMono cfg).lt_iff_lt.mp hlt))

theorem size_notMem_taken (k : ℕ) : size cfg k ∉ taken cfg k := by
  intro h
  obtain ⟨j, hj, heq⟩ := Finset.mem_image.mp h
  have := (size_strictMono cfg).injective heq
  have := Finset.mem_range.mp hj
  omega

theorem insert_size_taken (k : ℕ) : insert (size cfg k) (taken cfg k) = taken cfg (k + 1) := by
  unfold taken
  rw [Finset.range_add_one, Finset.image_insert]

theorem taken_zero : taken cfg 0 = ∅ := rfl

end Enumeration

/-! ### One search -/

/-- The loop passes over what is not accepted or taken, and stops at the first
candidate that is neither. -/
theorem nextLoop_eq {seen : Finset ℕ} {target : ℕ} (hok : isPrime target = true)
    (hfree : target ∉ seen) {fuel candidate : ℕ} (hle : candidate ≤ target)
    (hskip : ∀ c, candidate ≤ c → c < target → isPrime c = false ∨ c ∈ seen)
    (hfuel : target - candidate < fuel) : nextLoop fuel candidate seen = some target := by
  induction fuel generalizing candidate with
  | zero => omega
  | succ fuel ih =>
    unfold nextLoop
    -- a candidate below the target is skipped
    rcases Nat.lt_or_eq_of_le hle with hlt | rfl
    · have hc : (!isPrime candidate) = true ∨ candidate ∈ seen :=
        (hskip candidate (le_refl _) hlt).imp_left fun h => by rw [h]; rfl
      rw [if_pos hc]
      apply ih hlt _ (by omega)
      intro c hc hct
      exact hskip c (by omega) hct
    -- the target is accepted
    · apply if_neg
      rw [hok, not_or]
      exact ⟨nofun, hfree⟩

/-- **Every search terminates**, whatever is taken, at the least number above the
start that is accepted and free. -/
theorem findNextPrime_least (start : ℕ) (seen : Finset ℕ) :
    ∃ c, start < c ∧ isPrime c = true ∧ c ∉ seen ∧
      (∀ b, start < b → b < c → isPrime b = true → b ∈ seen) ∧
      ∀ᶠ fuel in atTop, findNextPrime fuel start seen = some c := by
  -- a prime above everything taken is accepted and free
  have hex : ∃ c, start < c ∧ isPrime c = true ∧ c ∉ seen := by
    obtain ⟨p, hle, hp⟩ := Nat.exists_infinite_primes (max (start + 1) (max 62 (seen.sup id + 1)))
    refine ⟨p, by omega, isPrime_of_prime hp (by omega), ?_⟩
    intro hmem
    have : id p ≤ seen.sup id := Finset.le_sup hmem
    rw [id] at this
    omega
  classical
  obtain ⟨hgt, hok, hfree⟩ := Nat.find_spec hex
  -- the first such number leaves no accepted one free before it
  have hleast : ∀ b, start < b → b < Nat.find hex → isPrime b = true → b ∈ seen := by
    intro b hb hlt hprime
    by_contra hmem
    exact Nat.find_min hex hlt ⟨hb, hprime, hmem⟩
  refine ⟨Nat.find hex, hgt, hok, hfree, hleast, ?_⟩
  refine eventually_atTop.mpr ⟨Nat.find hex + 1, fun fuel hfuel => ?_⟩
  apply nextLoop_eq hok hfree hgt _ (by omega)
  intro c hc hlt
  cases hp : isPrime c with
  | false => exact Or.inl rfl
  | true => exact Or.inr (hleast c hc hlt hp)

theorem findNextPrime_terminates (start : ℕ) (seen : Finset ℕ) :
    ∃ c, start < c ∧ isPrime c = true ∧ c ∉ seen ∧
      ∀ᶠ fuel in atTop, findNextPrime fuel start seen = some c := by
  obtain ⟨c, hgt, hok, hfree, -, hrun⟩ := findNextPrime_least start seen
  exact ⟨c, hgt, hok, hfree, hrun⟩

/-- **The search steps over no prime but 61.** `is_prime` accepts every prime but 61. The
search always ends at a free number above its start, and the primes in between are all
taken exactly when 61 cannot be among them: it is not above the start, it is taken, or a
free prime below it ends the search earlier. -/
theorem findNextPrime_skips_only_base (n start : ℕ) (seen : Finset ℕ) :
    (n.Prime → (isPrime n = true ↔ n ≠ 61)) ∧
    ∃ c, (∀ᶠ fuel in atTop, findNextPrime fuel start seen = some c) ∧ start < c ∧ c ∉ seen ∧
      ((∀ p, p.Prime → start < p → p < c → p ∈ seen) ↔
        61 ≤ start ∨ 61 ∈ seen ∨ ∃ p, p.Prime ∧ start < p ∧ p < 61 ∧ p ∉ seen) := by
  refine ⟨fun hn => isPrime_iff_of_prime hn, ?_⟩
  obtain ⟨c, hgt, hok, hfree, hleast, hrun⟩ := findNextPrime_least start seen
  refine ⟨c, hrun, hgt, hfree, ?_, ?_⟩
  · intro hall
    by_contra hcond
    simp only [not_or, not_exists, not_and, not_not, Nat.not_le] at hcond
    obtain ⟨hstart, h61, hbelow⟩ := hcond
    -- the search neither ends below 61 nor at it
    rcases Nat.lt_trichotomy c 61 with hlt | rfl | hlt
    · exact hfree (hbelow c (prime_of_isPrime hok (by omega)) hgt hlt)
    · rw [isPrime_base] at hok
      cases hok
    · exact h61 (hall 61 (by norm_num) hstart hlt)
  -- every free prime before the result is 61 at most
  · intro hcond p hp hlo hhi
    by_cases h61 : p = 61
    · subst h61
      rcases hcond with h | h | ⟨q, hq, hqlo, hqhi, hqfree⟩
      · omega
      · exact h
      · -- a free prime below 61 would have been returned
        have hok := isPrime_of_prime hq (by omega)
        exact absurd (hleast q hqlo (by omega) hok) hqfree
    · exact hleast p hlo hhi (isPrime_of_prime hp h61)

/-- From 60, with nothing taken, the search steps over the prime 61 and returns 67. -/
theorem findNextPrime_skips_sixty_one :
    Nat.Prime 61 ∧ isPrime 61 = false ∧ 60 < 61 ∧ 61 < 67 ∧ 61 ∉ (∅ : Finset ℕ) ∧
      ∀ᶠ fuel in atTop, findNextPrime fuel 60 ∅ = some 67 := by
  refine ⟨by norm_num, by decide, by omega, by omega, by simp, ?_⟩
  refine eventually_atTop.mpr ⟨7, fun fuel hfuel => ?_⟩
  apply nextLoop_eq (by decide) (by simp) (by omega) _ (by omega)
  intro c hc hlt
  left
  interval_cases c <;> decide

/-- **A search from inside the taken segment** ends at the next usable size,
wherever it starts. -/
theorem findNextPrime_next (cfg : TextConfig) {start k : ℕ}
    (hstart : cfg.engramVocabSize ≤ start + 1) (hlt : start < size cfg k) :
    ∀ᶠ fuel in atTop, findNextPrime fuel start (taken cfg k) = some (size cfg k) := by
  refine eventually_atTop.mpr ⟨size cfg k + 1, fun fuel hfuel => ?_⟩
  apply nextLoop_eq (size_usable cfg k).2 (size_notMem_taken cfg k) hlt _ (by omega)
  intro c hc hlt
  cases hp : isPrime c with
  | false => exact Or.inl rfl
  | true => exact Or.inr (mem_taken_of_lt cfg ⟨hstart.trans hc, hp⟩ hlt)

/-! ### The loops -/

/-- The `w` sizes from number `k` on. -/
noncomputable def sizesFrom (cfg : TextConfig) (k w : ℕ) : List ℕ :=
  (List.range w).map fun j => size cfg (k + j)

@[simp] theorem length_sizesFrom (cfg : TextConfig) (k w : ℕ) : (sizesFrom cfg k w).length = w := by
  simp [sizesFrom]

theorem sizesFrom_succ (cfg : TextConfig) (k w : ℕ) :
    sizesFrom cfg k (w + 1) = size cfg k :: sizesFrom cfg (k + 1) w := by
  unfold sizesFrom
  rw [List.range_succ_eq_map, List.map_cons, List.map_map]
  congr 1
  apply List.map_congr_left
  intro j _
  show size cfg (k + (j + 1)) = size cfg (k + 1 + j)
  congr 1
  omega

theorem sizesFrom_append (cfg : TextConfig) (k v w : ℕ) :
    sizesFrom cfg k v ++ sizesFrom cfg (k + v) w = sizesFrom cfg k (v + w) := by
  unfold sizesFrom
  rw [List.range_add, List.map_append, List.map_map]
  congr 1
  apply List.map_congr_left
  intro j _
  exact congrArg (size cfg) (Nat.add_assoc k v j)

section Loops

variable {cfg : TextConfig}

theorem headLoop_eq (heads : ℕ) {current k : ℕ} (hcur : cfg.engramVocabSize ≤ current + 1)
    (hlt : current < size cfg k) :
    ∀ᶠ fuel in atTop, headLoop fuel heads current (taken cfg k) =
      some (sizesFrom cfg k heads, taken cfg (k + heads)) := by
  induction heads generalizing current k with
  | zero => exact Eventually.of_forall fun _ => rfl
  | succ heads ih =>
    -- the next head goes on behind this one
    have hnext : cfg.engramVocabSize ≤ size cfg k + 1 := Nat.le_succ_of_le (size_usable cfg k).1
    filter_upwards [findNextPrime_next cfg hcur hlt,
      ih hnext (size_strictMono cfg (Nat.lt_succ_self k))] with fuel hfind hrest
    unfold headLoop
    rw [hfind]
    show (headLoop fuel heads (size cfg k) (insert (size cfg k) (taken cfg k))).bind _ = _
    rw [insert_size_taken, hrest, sizesFrom_succ, show k + (heads + 1) = k + 1 + heads by omega]
    rfl

/-- The search may start again below the vocabulary: nothing usable is there. -/
theorem pred_vocab_lt (hvocab : 1 ≤ cfg.engramVocabSize) (k : ℕ) :
    cfg.engramVocabSize - 1 < size cfg k := by
  have := (size_usable cfg k).1
  omega

theorem ngramLoop_eq (hvocab : 1 ≤ cfg.engramVocabSize) (ngrams k : ℕ) :
    ∀ᶠ fuel in atTop,
      ngramLoop fuel cfg.engramVocabSize cfg.engramNHeads ngrams (taken cfg k) =
        some (sizesFrom cfg k (cfg.engramNHeads * ngrams),
          taken cfg (k + cfg.engramNHeads * ngrams)) := by
  induction ngrams generalizing k with
  | zero => exact Eventually.of_forall fun _ => rfl
  | succ ngrams ih =>
    have hstart : cfg.engramVocabSize ≤ cfg.engramVocabSize - 1 + 1 := by omega
    -- each n-gram order starts at the vocabulary again
    filter_upwards [headLoop_eq cfg.engramNHeads hstart (pred_vocab_lt hvocab k),
      ih (k + cfg.engramNHeads)] with fuel hhead hrest
    unfold ngramLoop
    rw [hhead]
    show (ngramLoop fuel _ _ ngrams (taken cfg (k + cfg.engramNHeads))).bind _ = _
    rw [hrest, Nat.mul_succ, Nat.add_comm (_ * ngrams), ← sizesFrom_append, ← Nat.add_assoc]
    rfl

/-- How many heads a layer has. -/
def width (cfg : TextConfig) : ℕ := cfg.engramNHeads * (cfg.engramMaxNgramSize - 1)

/-- **One layer** takes the next `width` sizes. -/
theorem headSizes_eq (hvocab : 1 ≤ cfg.engramVocabSize) (k : ℕ) :
    ∀ᶠ fuel in atTop, headSizes fuel cfg (taken cfg k) =
      some (sizesFrom cfg k (width cfg), taken cfg (k + width cfg)) :=
  ngramLoop_eq hvocab _ k

/-- The tuple of layer `i` of the walk. -/
noncomputable def layerSizes (cfg : TextConfig) (i : ℕ) : List ℕ :=
  sizesFrom cfg (i * width cfg) (width cfg)

theorem layerLoop_eq (hvocab : 1 ≤ cfg.engramVocabSize) (layers i : ℕ) (last : List ℕ) :
    ∀ᶠ fuel in atTop,
      layerLoop fuel cfg (layers + 1) (taken cfg (i * width cfg)) last =
        some (layerSizes cfg (i + layers)) := by
  induction layers generalizing i last with
  -- the sizes of the last layer
  | zero =>
    filter_upwards [headSizes_eq hvocab (i * width cfg)] with fuel h
    unfold layerLoop
    rw [h]
    rfl
  | succ layers ih =>
    filter_upwards [headSizes_eq hvocab (i * width cfg),
      ih (i + 1) (sizesFrom cfg (i * width cfg) (width cfg))] with fuel h hrest
    unfold layerLoop
    rw [h]
    show layerLoop fuel cfg (layers + 1) (taken cfg (i * width cfg + width cfg))
      (sizesFrom cfg (i * width cfg) (width cfg)) = _
    rw [← Nat.succ_mul, hrest, Nat.add_right_comm]
    rfl

theorem walk_eq (hvocab : 1 ≤ cfg.engramVocabSize) (layers i : ℕ) :
    ∀ᶠ fuel in atTop, walk fuel cfg layers (taken cfg (i * width cfg)) =
      some ((List.range layers).map fun j => layerSizes cfg (i + j)) := by
  induction layers generalizing i with
  | zero => exact Eventually.of_forall fun _ => rfl
  | succ layers ih =>
    filter_upwards [headSizes_eq hvocab (i * width cfg), ih (i + 1)] with fuel h hrest
    unfold walk
    rw [h]
    show (walk fuel cfg layers (taken cfg (i * width cfg + width cfg))).bind _ = _
    rw [← Nat.succ_mul, hrest, List.range_succ_eq_map, List.map_cons, List.map_map]
    show some (layerSizes cfg i :: _) = some (layerSizes cfg i :: _)
    congr 2
    apply List.map_congr_left
    intro j _
    show layerSizes cfg (i + 1 + j) = layerSizes cfg (i + (j + 1))
    congr 1
    omega

end Loops

/-! ### The tuples -/

section Tuples

variable (cfg : TextConfig)

theorem pairwise_sizesFrom (k w : ℕ) : (sizesFrom cfg k w).Pairwise (· < ·) := by
  unfold sizesFrom
  rw [List.pairwise_map]
  apply List.pairwise_lt_range.imp
  intro i j hij
  exact size_strictMono cfg (Nat.add_lt_add_left hij k)

theorem usable_of_mem_sizesFrom {k w s : ℕ} (h : s ∈ sizesFrom cfg k w) : Usable cfg s := by
  obtain ⟨j, -, rfl⟩ := List.mem_map.mp h
  exact size_usable cfg (k + j)

/-- The tuples of the layers, one after another, are the enumeration. -/
theorem flatten_layerSizes (layers : ℕ) :
    ((List.range layers).map (layerSizes cfg)).flatten = sizesFrom cfg 0 (layers * width cfg) := by
  induction layers with
  | zero =>
    rw [Nat.zero_mul]
    rfl
  | succ layers ih =>
    rw [List.range_succ, List.map_append, List.flatten_append, ih, Nat.succ_mul, ← sizesFrom_append,
      Nat.zero_add]
    simp [layerSizes]

/-- Later sizes sum to more, by at least one for each head. -/
theorem sum_sizesFrom_lt {k l : ℕ} (hkl : k < l) (w : ℕ) :
    (sizesFrom cfg k w).sum + w ≤ (sizesFrom cfg l w).sum := by
  induction w generalizing k l with
  | zero => exact Nat.zero_le _
  | succ w ih =>
    have hhead := size_strictMono cfg hkl
    have htail := ih (Nat.add_lt_add_right hkl 1)
    rw [sizesFrom_succ, sizesFrom_succ, List.sum_cons, List.sum_cons]
    omega

/-- The row count of a later layer is larger. -/
theorem sum_layerSizes_lt (hw : 0 < width cfg) {i j : ℕ} (hij : i < j) :
    (layerSizes cfg i).sum < (layerSizes cfg j).sum := by
  have hstart : i * width cfg < j * width cfg := Nat.mul_lt_mul_of_pos_right hij hw
  have := sum_sizesFrom_lt cfg hstart (width cfg)
  unfold layerSizes
  omega

end Tuples

/-! ### Finding the layer again -/

/-- Distinct row counts lead back to their layers. -/
theorem layerIdFromEmbeddings_of_nodup {ids : List ℤ} {rows : List ℕ}
    (hlen : ids.length = rows.length) (hrows : rows.Nodup) {i : ℕ} {n : ℕ} {layerId : ℤ}
    (hn : rows[i]? = some n) (hid : ids[i]? = some layerId) :
    layerIdFromEmbeddings n ids rows = .ok layerId := by
  induction rows generalizing ids i with
  | nil => cases hn
  | cons r rows ih =>
    cases ids with
    | nil => cases hid
    -- by where the layer stands
    | cons x ids =>
      obtain ⟨hr, hrows⟩ := List.nodup_cons.mp hrows
      unfold layerIdFromEmbeddings
      cases i with
      | zero =>
        cases hn
        cases hid
        exact if_pos rfl
      | succ i =>
        -- the row count is further down, so it is not the first
        have hne : r ≠ n := by
          rintro rfl
          exact hr (List.mem_of_getElem? hn)
        rw [if_neg hne]
        exact ih (Nat.succ.inj hlen) hrows hn hid

/-- **The head layout identifies layers.** Every search terminates. The walk over any
number of layers with one shared set returns tuples of sizes from the vocabulary
size on that `is_prime` accepts, which strictly increase from one head to the next
and from one layer to the next; `layer_head_sizes_from_config` returns them one by
one; and their sums are distinct, so that a layer's row count leads back to it. -/
theorem layout_identifies_layers (cfg : TextConfig) (hvocab : 1 ≤ cfg.engramVocabSize)
    (hheads : 1 ≤ cfg.engramNHeads) (hngram : 2 ≤ cfg.engramMaxNgramSize) :
    (∀ start seen, ∃ c, start < c ∧ isPrime c = true ∧ c ∉ seen ∧
      ∀ᶠ fuel in atTop, findNextPrime fuel start seen = some c) ∧
    ∀ layers, ∃ tuples : List (List ℕ), tuples.length = layers ∧
      (∀ᶠ fuel in atTop, walk fuel cfg layers ∅ = some tuples) ∧
      (∀ sizes ∈ tuples, sizes.length = cfg.engramNHeads * (cfg.engramMaxNgramSize - 1) ∧
        ∀ s ∈ sizes, cfg.engramVocabSize - 1 < s ∧ isPrime s = true) ∧
      tuples.flatten.Pairwise (· < ·) ∧
      (∀ i < layers, ∀ᶠ fuel in atTop, layerHeadSizesFromConfig fuel cfg i = tuples[i]?) ∧
      (tuples.map List.sum).Nodup ∧
      ∀ ids : List ℤ, ids.length = layers → ∀ (i : ℕ) (n : ℕ) (layerId : ℤ),
        (tuples.map List.sum)[i]? = some n → ids[i]? = some layerId →
        layerIdFromEmbeddings n ids (tuples.map List.sum) = .ok layerId := by
  have hw : 0 < width cfg := Nat.mul_pos hheads (by omega)
  refine ⟨findNextPrime_terminates, ?_⟩
  intro layers
  have hnodup : (((List.range layers).map (layerSizes cfg)).map List.sum).Nodup := by
    rw [List.map_map]
    -- later layers have larger primes, so larger sums
    apply List.Pairwise.imp (R := (· < ·)) Nat.ne_of_lt
    rw [List.pairwise_map]
    exact List.pairwise_lt_range.imp fun hij => sum_layerSizes_lt cfg hw hij
  refine ⟨(List.range layers).map (layerSizes cfg), by simp, ?_, ?_, ?_, ?_, hnodup, ?_⟩
  -- the walk ends
  · filter_upwards [walk_eq hvocab layers 0] with fuel h
    rw [Nat.zero_mul, taken_zero] at h
    simpa using h
  -- every size is an accepted number above the vocabulary
  · intro sizes hsizes
    obtain ⟨i, -, rfl⟩ := List.mem_map.mp hsizes
    refine ⟨length_sizesFrom cfg _ _, ?_⟩
    intro s hs
    obtain ⟨hle, hprime⟩ := usable_of_mem_sizesFrom cfg hs
    exact ⟨by omega, hprime⟩
  -- the sizes increase over all layers
  · rw [flatten_layerSizes]
    exact pairwise_sizesFrom cfg 0 _
  -- the sizes of one layer are those of the walk
  · intro i hi
    filter_upwards [layerLoop_eq hvocab i 0 []] with fuel h
    rw [Nat.zero_mul, taken_zero, Nat.zero_add] at h
    rw [List.getElem?_map, List.getElem?_range hi]
    exact h
  · intro ids hlen i n layerId hn hid
    exact layerIdFromEmbeddings_of_nodup (by simp [hlen]) hnodup hn hid

/-- Two layers of two heads over a vocabulary of ten. -/
theorem layout_identifies_layers_small :
    ∃ tuples : List (List ℕ), tuples.length = 2 ∧ tuples.flatten.Pairwise (· < ·) ∧
      ∀ᶠ fuel in atTop, walk fuel ⟨10, 2, 2⟩ 2 ∅ = some tuples := by
  obtain ⟨tuples, hlen, hwalk, -, hlt, -⟩ :=
    (layout_identifies_layers ⟨10, 2, 2⟩ (by decide) (by decide) (by decide)).2 2
  exact ⟨tuples, hlen, hlt, hwalk⟩

example : walk 10 ⟨10, 2, 2⟩ 2 ∅ = some [[11, 13], [17, 19]] := by decide

end Dsv41Overlay.Engram
