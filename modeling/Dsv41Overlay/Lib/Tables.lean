import Mathlib.Algebra.BigOperators.Group.List.Basic
import Mathlib.Data.List.AList

/-!
# Tables with a default

A `defaultdict` is an association list that is read through a default. What its entries
amount to together (`total`) is what one entry amounts to and what all others do, whether
the entry is there or not.
-/

namespace Dsv41Overlay.Tables

variable {α β M : Type*} [DecidableEq α] [AddCommMonoid M] (w : β → M)
  (s : AList fun _ : α => β) (a : α) (b d : β)

/-- The sum over the entries. -/
def total : M := (s.entries.map fun e => w e.2).sum

theorem erase_insert : (s.insert a b).erase a = s.erase a := by
  apply AList.ext
  change List.kerase a (s.insert a b).entries = List.kerase a s.entries
  rw [AList.entries_insert]
  exact List.kerase_cons_eq rfl

theorem total_insert : total w (s.insert a b) = w b + total w (s.erase a) := by
  rw [total, AList.entries_insert, List.map_cons, List.sum_cons]
  rfl

variable {w}

theorem total_eq (hd : w d = 0) :
    total w s = w ((s.lookup a).getD d) + total w (s.erase a) := by
  cases hlookup : s.lookup a with
  | none =>
    have herase : s.erase a = s := by
      apply AList.ext
      exact List.kerase_of_notMem_keys (List.dlookup_eq_none.mp hlookup)
    rw [herase, Option.getD_none, hd, zero_add]
  | some b =>
    -- with the entry moved to the front it is an insertion
    have hperm : s.entries.Perm (⟨a, b⟩ :: List.kerase a s.entries) := by
      have hkey : a ∈ s.entries.keys := AList.lookup_isSome.mp (hlookup ▸ rfl)
      obtain ⟨b', l₁, l₂, -, hsplit, hrest⟩ := List.exists_of_kerase hkey
      have hb : b' = b := by
        have hmem : (⟨a, b'⟩ : Sigma fun _ : α => β) ∈ s.entries := by
          rw [hsplit]
          exact List.mem_append_right _ List.mem_cons_self
        have hfound := List.mem_dlookup s.nodupKeys hmem
        exact Option.some.inj ((Option.mem_def.mp hfound).symm.trans hlookup)
      rw [hrest, hsplit, hb]
      exact List.perm_middle
    rw [total, (hperm.map _).sum_eq, List.map_cons, List.sum_cons]
    rfl

end Dsv41Overlay.Tables
