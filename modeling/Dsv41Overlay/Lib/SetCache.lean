import Mathlib.Data.List.Find

/-!
# Set-associative caches

A cache of `sets * ways` cells for the values of a function `row : ℕ → α`. The
key of a cell is `id + 1` for the row `id` it holds and `0` while it is empty;
`id` may live in the cells of set `id % sets` only, and each set replaces its
ways in turn, by a cursor of its own.

`Coherent row` is the invariant: whatever key a cell has, the cell holds that
row. A lookup in a coherent cache can only return the right row, and inserting
the right row keeps the cache coherent, whichever cell it overwrites and whether
or not the row is in the cache already. Nothing here says which rows are cached.

Operations on different sets do not see each other (`lookup_insert_of_ne`,
`insert_comm`), so a lock for each set, or for each class of sets, is enough to
run them one at a time.
-/

namespace Dsv41Overlay

/-- A set-associative cache: cell `set * ways + w` is way `w` of set `set`. -/
structure SetCache (α : Type*) where
  sets : ℕ
  ways : ℕ
  /-- `id + 1` for the cell's row, `0` for an empty cell. -/
  keys : List ℕ
  rows : List α
  /-- The way each set replaces next. -/
  victim : List ℕ
deriving Repr, DecidableEq

namespace SetCache

variable {α : Type*}

/-- A cache without a row; `blank` fills its cells. -/
def empty (sets ways : ℕ) (blank : α) : SetCache α where
  sets
  ways
  keys := List.replicate (sets * ways) 0
  rows := List.replicate (sets * ways) blank
  victim := List.replicate sets 0

/-- The first cell of the set of `id`. -/
def base (c : SetCache α) (id : ℕ) : ℕ := id % c.sets * c.ways

/-- The first way of the set of `id` whose key is that of `id`. -/
def find (c : SetCache α) (id : ℕ) : Option ℕ :=
  (List.range c.ways).find? fun w => c.keys[c.base id + w]? == some (id + 1)

/-- The row cached for `id`. A cache without sets has none. -/
def lookup (c : SetCache α) (id : ℕ) : Option α :=
  if c.sets = 0 then none else (c.find id).bind fun w => c.rows[c.base id + w]?

/-- The way that a row of the set of `id` replaces. -/
def way (c : SetCache α) (id : ℕ) : ℕ := (c.victim[id % c.sets]?).getD 0 % c.ways

/-- Stores `row` for `id` in place of its set's victim. -/
def insert (c : SetCache α) (id : ℕ) (row : α) : SetCache α :=
  if c.sets = 0 then c else
    { c with
      victim := c.victim.set (id % c.sets) (((c.victim[id % c.sets]?).getD 0 + 1) % c.ways)
      rows := c.rows.set (c.base id + c.way id) row
      keys := c.keys.set (c.base id + c.way id) (id + 1) }

@[simp] theorem insert_sets (c : SetCache α) (id : ℕ) (row : α) :
    (c.insert id row).sets = c.sets := by
  unfold insert; split <;> rfl

/-! ### Coherence -/

/-- Every key tells the truth about its cell, and the cursors are in range. -/
structure Coherent (row : ℕ → α) (c : SetCache α) : Prop where
  /-- A set has a way. -/
  ways_pos : 0 < c.ways
  /-- One key for each cell. -/
  keys_length : c.keys.length = c.sets * c.ways
  /-- One row for each cell. -/
  rows_length : c.rows.length = c.sets * c.ways
  /-- One cursor for each set. -/
  victim_length : c.victim.length = c.sets
  /-- The cell with the key of `k` holds the row of `k` and is in the set of `k`. -/
  holds : ∀ set w k, w < c.ways → c.keys[set * c.ways + w]? = some (k + 1) →
    c.rows[set * c.ways + w]? = some (row k) ∧ set = k % c.sets
  /-- A cursor names a way. -/
  cursor : ∀ v ∈ c.victim, v < c.ways

variable {row : ℕ → α} {c : SetCache α} {id : ℕ}

/-- An empty cache is coherent with any rows. -/
theorem empty_coherent (row : ℕ → α) {sets ways : ℕ} (blank : α) (hways : 0 < ways) :
    (empty sets ways blank).Coherent row where
  ways_pos := hways
  keys_length := List.length_replicate
  rows_length := List.length_replicate
  victim_length := List.length_replicate
  holds set w k _ hkey := by
    -- every key is zero
    have h := List.eq_of_mem_replicate (List.mem_of_getElem? hkey)
    exact absurd h (Nat.succ_ne_zero k)
  cursor v hv := by
    rw [List.eq_of_mem_replicate hv]
    exact hways

/-- **A hit is right**: a coherent cache returns the row of the id or nothing. -/
theorem lookup_coherent (hc : c.Coherent row) {r : α} (h : c.lookup id = some r) :
    r = row id := by
  unfold lookup at h
  split at h
  · exact nomatch h
  · obtain ⟨w, hw, hr⟩ := Option.bind_eq_some_iff.mp h
    have hkey : c.keys[c.base id + w]? = some (id + 1) := by
      simpa using List.find?_some hw
    have hlt : w < c.ways := List.mem_range.mp (List.mem_of_find?_eq_some hw)
    have hrow := (hc.holds _ w id hlt hkey).1
    exact Option.some.inj (hr.symm.trans hrow)

/-- A cell is a set and a way. -/
theorem cell_inj {n set set' w w' : ℕ} (hw : w < n) (hw' : w' < n)
    (h : set * n + w = set' * n + w') : set = set' ∧ w = w' := by
  have hn : 0 < n := Nat.lt_of_le_of_lt (Nat.zero_le w) hw
  have hset : set = set' :=
    calc set = (w + set * n) / n := by
          rw [Nat.add_mul_div_right _ _ hn, Nat.div_eq_of_lt hw, Nat.zero_add]
      _ = (w' + set' * n) / n := by rw [Nat.add_comm w, h, Nat.add_comm w']
      _ = set' := by rw [Nat.add_mul_div_right _ _ hn, Nat.div_eq_of_lt hw', Nat.zero_add]
  subst hset
  exact ⟨rfl, Nat.add_left_cancel h⟩

/-- **Inserting the right row keeps the cache coherent.** -/
theorem insert_coherent (hc : c.Coherent row) (id : ℕ) : (c.insert id (row id)).Coherent row := by
  have hways := hc.ways_pos
  by_cases hsets : c.sets = 0
  · simpa [insert, hsets] using hc
  have hway : c.way id < c.ways := Nat.mod_lt _ hways
  -- the cell that is overwritten is one of the set
  have hcell : c.base id + c.way id < c.sets * c.ways :=
    calc c.base id + c.way id < (id % c.sets + 1) * c.ways := by
          rw [base, Nat.succ_mul]
          exact Nat.add_lt_add_left hway _
      _ ≤ c.sets * c.ways :=
          Nat.mul_le_mul_right _ (Nat.mod_lt _ (Nat.pos_of_ne_zero hsets))
  simp only [insert, hsets, if_false]
  refine ⟨hways, ?_, ?_, ?_, ?_, ?_⟩
  · rw [List.length_set]; exact hc.keys_length
  · rw [List.length_set]; exact hc.rows_length
  · rw [List.length_set]; exact hc.victim_length
  · intro set w k hw hkey
    by_cases hhere : c.base id + c.way id = set * c.ways + w
    · -- the overwritten cell: its key is now that of `id`
      rw [hhere, List.getElem?_set_self (by rw [hc.keys_length]; omega)] at hkey
      obtain rfl : id = k := Nat.succ.inj (Option.some.inj hkey)
      refine ⟨?_, (cell_inj hway hw hhere).1.symm⟩
      rw [hhere, List.getElem?_set_self (by rw [hc.rows_length]; omega)]
    · rw [List.getElem?_set_ne hhere] at hkey
      rw [List.getElem?_set_ne hhere]
      exact hc.holds set w k hw hkey
  · intro v hv
    obtain hv | rfl := List.mem_or_eq_of_mem_set hv
    · exact hc.cursor v hv
    · exact Nat.mod_lt _ hways

/-! ### Different sets

The cells of two sets are apart, so what happens in one is not seen in the other. -/

/-- The cells of two sets differ. -/
theorem cell_ne (hways : 0 < c.ways) {k w : ℕ} (hw : w < c.ways)
    (h : id % c.sets ≠ k % c.sets) : c.base id + c.way id ≠ c.base k + w := fun heq =>
  h (cell_inj (Nat.mod_lt _ hways) hw heq).1

/-- An insertion leaves the lookups of the other sets alone. -/
theorem lookup_insert_of_ne (hways : 0 < c.ways) {k : ℕ} (r : α)
    (h : id % c.sets ≠ k % c.sets) : (c.insert id r).lookup k = c.lookup k := by
  by_cases hsets : c.sets = 0
  · rw [insert, if_pos hsets]
  -- the keys of the other set are as they were
  have hfind : (c.insert id r).find k = c.find k := by
    simp only [find, insert, hsets, if_false, base]
    refine List.find?_congr fun w hw => ?_
    have hne := cell_ne hways (List.mem_range.mp hw) h
    simp only [base] at hne
    rw [List.getElem?_set_ne hne]
  unfold lookup
  rw [insert_sets, hfind]
  refine if_congr Iff.rfl rfl ?_
  refine Option.bind_congr fun w hw => ?_
  have hlt : w < c.ways := List.mem_range.mp (List.mem_of_find?_eq_some hw)
  have hne := cell_ne hways hlt h
  simp only [insert, hsets, if_false, base] at hne ⊢
  rw [List.getElem?_set_ne hne]

/-- Insertions into different sets commute. -/
theorem insert_comm (hways : 0 < c.ways) {k : ℕ} (r r' : α) (h : id % c.sets ≠ k % c.sets) :
    (c.insert id r).insert k r' = (c.insert k r').insert id r := by
  by_cases hsets : c.sets = 0
  · simp only [insert, hsets, if_true]
  have hne := cell_ne (c := c) hways (Nat.mod_lt ((c.victim[k % c.sets]?).getD 0) hways) h
  simp only [base, way] at hne
  simp only [insert, hsets, if_false, base, way, List.getElem?_set_ne h,
    List.getElem?_set_ne (Ne.symm h)]
  rw [List.set_comm _ _ h, List.set_comm _ _ hne, List.set_comm _ _ hne]

end SetCache
end Dsv41Overlay
