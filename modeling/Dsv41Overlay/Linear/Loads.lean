import Dsv41Overlay.Lib.Fallible
import Dsv41Overlay.Linear.Layer
import Mathlib.Algebra.Order.Ring.Int
import Mathlib.Tactic.Linarith

/-!
# What a layer holds after its loads

The checkpoint's tensors reach a layer in any order, some of them twice, some of them
never. After any such run a fused layer holds in its stash, for each shard this rank
owns, what it made of the tensor last loaded for it (`Kept`), and nothing of the
shards of other ranks; a layer with a single packed matrix holds the same in its
parameters, where a parameter nothing was loaded for keeps what `torch.empty` found
(`Filled`).
-/

namespace Dsv41Overlay.Linear

variable {V Inner : Type}

/-! ### The stash -/

@[simp] theorem Stash.entry_empty (shard : ℤ) (suffix : Suffix) :
    Stash.entry (∅ : Stash V) shard suffix = none := by
  rw [Stash.entry, AList.lookup_empty]
  rfl

theorem Stash.entry_put (stash : Stash V) (i j : ℤ) (s s' : Suffix) (t : Tensor V) :
    (stash.put i s t).entry j s' = if j = i ∧ s' = s then some t else stash.entry j s' := by
  by_cases hj : j = i
  -- the shard that was written, then the others
  · subst hj
    rw [Stash.entry, Stash.put, AList.lookup_insert, Option.bind_some]
    by_cases hs : s' = s
    · subst hs
      rw [AList.lookup_insert, if_pos ⟨rfl, rfl⟩]
    -- its other tensors stay, if it had any
    · rw [AList.lookup_insert_ne hs, if_neg fun h => hs h.2, Stash.entry]
      cases stash.lookup j with
      | none => exact AList.lookup_empty s'
      | some tensors => rfl
  · rw [Stash.entry, Stash.put, AList.lookup_insert_ne hj, if_neg fun h => hj h.1]
    rfl

theorem Slot.suffix_injective : Function.Injective Slot.suffix := by
  intro a b h
  cases a <;> cases b <;> first | rfl | cases h

theorem Stash.mem_put (stash : Stash V) (i j : ℤ) (s : Suffix) (t : Tensor V) :
    j ∈ stash.put i s t ↔ j = i ∨ j ∈ stash :=
  AList.mem_insert stash

theorem Layer.params_write (layer : Layer V Inner) (slot s : Slot) (t : Tensor V) :
    (layer.write slot t).params s =
      if s = slot then { layer.params slot with tensor := t } else layer.params s :=
  Function.update_apply layer.params slot _ s

@[simp] theorem Layer.fusedStash_keep (layer : Layer V Inner) (T : Torch V Inner) (slot : Slot)
    (shard : ℤ) (name : Suffix) (t : Tensor V) :
    (layer.keep T slot shard name t).fusedStash = layer.fusedStash.put shard name t := by
  rw [Layer.keep]
  split <;> rfl

/-! ### The loads of a checkpoint -/

/-- The shard id of a call, `some none` for a call that names none; `none` when reading
it raises. -/
def Load.key (l : Load V) : Option (Option ℤ) := l.shardArg.shardId.toOption

/-- A call supplies the tensor of a slot for a shard. -/
def Load.Supplies (l : Load V) (key : Option ℤ) (slot : Slot) : Prop :=
  l.key = some key ∧ l.slot = slot

instance (l : Load V) (key : Option ℤ) (slot : Slot) : Decidable (l.Supplies key slot) :=
  inferInstanceAs (Decidable (_ ∧ _))

/-- The tensor last loaded for a shard. -/
def lastLoaded (loads : List (Load V)) (key : Option ℤ) (slot : Slot) : Option (Tensor V) :=
  (loads.reverse.find? fun l => decide (l.Supplies key slot)).map Load.tensor

@[simp] theorem lastLoaded_nil (key : Option ℤ) (slot : Slot) :
    lastLoaded ([] : List (Load V)) key slot = none := rfl

theorem lastLoaded_snoc (loads : List (Load V)) (l : Load V) (key : Option ℤ) (slot : Slot) :
    lastLoaded (loads ++ [l]) key slot =
      if l.Supplies key slot then some l.tensor else lastLoaded loads key slot := by
  rw [lastLoaded, List.reverse_append, List.reverse_singleton, List.singleton_append,
    List.find?_cons]
  by_cases h : l.Supplies key slot
  · rw [decide_eq_true h, if_pos h]
    rfl
  · rw [decide_eq_false h, if_neg h]
    rfl

/-! ### Packed linears -/

/-- A layer made by `create_weights` for a group of `size` ranks. A grouped linear gets
`bmm_batch_size` from its owner right after; it has one output partition and is column
parallel over its groups. -/
structure PackedLinear (T : Torch V Inner) (size : ℕ) where
  method : Exl3LinearMethod
  args : CreateArgs
  device : TensorDevice
  groups : Option ℕ
  created : Layer V Inner
  create : method.createWeights T device args = .ok created
  grouped : ∀ n, groups = some n →
    0 < n ∧ args.outputPartitionSizes.length = 1 ∧ (size = 1 ∨ args.shard = .col)

/-- The loader's view of one rank. -/
def tpOf {size : ℕ} (rank : Fin size) : Tp := ⟨rank, size, rank.isLt⟩

namespace PackedLinear

variable {T : Torch V Inner} {size : ℕ} (p : PackedLinear T size)

/-- The layer before the first load. -/
def layer : Layer V Inner :=
  match p.groups with
  | none => p.created
  | some n => { p.created with isBmm := true, bmmBatchSize := some n }

/-- The shards of a linear with this many output partitions; one without parts to tell
apart is loaded without a shard id. -/
def partKeys : ℕ → List (Option ℤ)
  | 0 => []
  | 1 => [none]
  | k + 2 => (List.range (k + 2)).map fun i : ℕ => some (i : ℤ)

/-- The shards that the checkpoint has for this linear. -/
def keys : List (Option ℤ) :=
  match p.groups with
  | none => partKeys p.args.outputPartitionSizes.length
  | some n => (List.range (size * n)).map fun g : ℕ => some (g : ℤ)

/-- The shards that one rank serves: every output partition, or its own range of groups. -/
def localKeys (rank : Fin size) : List (Option ℤ) :=
  match p.groups with
  | none => partKeys p.args.outputPartitionSizes.length
  | some n => (List.range n).map fun i : ℕ => some ((rank * n + i : ℕ) : ℤ)

/-- The call supplies one of the linear's packed tensors. -/
def Expects (l : Load V) : Prop := ∃ key ∈ p.keys, l.key = some key

instance (l : Load V) : Decidable (p.Expects l) :=
  inferInstanceAs (Decidable (∃ key ∈ p.keys, l.key = some key))

/-- Load after load. -/
def loadAll (rank : Fin size) (loads : List (Load V)) : Except LinearError (Layer V Inner) :=
  loads.foldlM (p.method.load T (tpOf rank)) p.layer

/-- The layer has more than one packed matrix. -/
def fused : Bool := p.groups.isSome || decide (1 < p.args.outputPartitionSizes.length)

/-- The checkpoint packs the tensors of each group apart. -/
def preSliced : Bool := p.groups.isSome && decide (p.args.shard = .col)

/-- What a rank keeps of a tensor of the checkpoint: its slice, on the device. -/
def keep (rank : Fin size) (slot : Slot) (w : Tensor V) : Except LinearError (Tensor V) := do
  let param := (p.layer.params slot).tensor
  let loaded ← arrive T (tpOf rank) p.args.shard p.preSliced slot.suffix w
  return if p.fused then onDevice T param loaded else T.h2dAlloc loaded param.device param.dtype

/-! ### What loading never changes -/

theorem created_eq : p.created =
    { params := fun slot =>
        { tensor := T.emptyTensor (p.method.shape p.args slot) slot.dtype p.device
          suffix := some slot.suffix
          shard := p.args.shard }
      outputPartitionSizes := p.args.outputPartitionSizes
      fusedStash := ∅
      k := p.method.k
      isBmm := false
      bmmBatchSize := none
      inners := none
      inner := none } := by
  have h := p.create
  rw [Exl3LinearMethod.createWeights] at h
  split at h
  · cases h
  · exact (Except.ok.inj h).symm

theorem layer_params (slot : Slot) : p.layer.params slot =
    { tensor := T.emptyTensor (p.method.shape p.args slot) slot.dtype p.device
      suffix := some slot.suffix
      shard := p.args.shard } := by
  rw [layer]
  cases p.groups <;> rw [p.created_eq]

@[simp] theorem layer_fusedStash : p.layer.fusedStash = ∅ := by
  rw [layer]
  cases p.groups <;> rw [p.created_eq]

/-- The attributes of a layer that stay as created. -/
structure Base (layer : Layer V Inner) : Prop where
  suffix : ∀ slot, (layer.params slot).suffix = some slot.suffix
  shard : ∀ slot, (layer.params slot).shard = p.args.shard
  dtype : ∀ slot, (layer.params slot).tensor.dtype = slot.dtype
  device : ∀ slot, (layer.params slot).tensor.device = p.device
  parts : layer.outputPartitionSizes = p.args.outputPartitionSizes
  bmm : layer.bmmBatchSize = p.groups.map Nat.cast
  inners : layer.inners = none
  inner : layer.inner = none

theorem base_layer : p.Base p.layer where
  suffix slot := by rw [layer_params]
  shard slot := by rw [layer_params]
  dtype slot := by rw [layer_params]; rfl
  device slot := by rw [layer_params]; rfl
  parts := by rw [layer]; cases p.groups <;> rw [p.created_eq]
  bmm := by
    rw [layer]
    cases p.groups with
    | none => rw [p.created_eq]; rfl
    | some n => rfl
  inners := by rw [layer]; cases p.groups <;> rw [p.created_eq]
  inner := by rw [layer]; cases p.groups <;> rw [p.created_eq]

variable {p} {layer : Layer V Inner}

/-- Writing a parameter changes no attribute as long as it stays on its device. -/
theorem Base.write (h : p.Base layer) {slot : Slot} {t : Tensor V} (hdtype : t.dtype = slot.dtype)
    (hdevice : t.device = p.device) : p.Base (layer.write slot t) := by
  refine ⟨fun s => ?_, fun s => ?_, fun s => ?_, fun s => ?_, h.parts, h.bmm, h.inners, h.inner⟩
  all_goals rw [Layer.params_write]; split
  case _ hs => exact hs ▸ h.suffix s
  case _ hs => exact h.suffix s
  case _ hs => exact hs ▸ h.shard s
  case _ hs => exact h.shard s
  case _ hs => exact hs ▸ hdtype
  case _ hs => exact h.dtype s
  case _ hs => exact hdevice
  case _ hs => exact h.device s

theorem Base.put (h : p.Base layer) (stash : Stash V) :
    p.Base { layer with fusedStash := stash } :=
  ⟨h.suffix, h.shard, h.dtype, h.device, h.parts, h.bmm, h.inners, h.inner⟩

theorem Base.keep (h : p.Base layer) (slot : Slot) (shard : ℤ) (name : Suffix) (t : Tensor V) :
    p.Base (layer.keep T slot shard name t) := by
  rw [Layer.keep]
  split
  · exact (h.put _).write (h.dtype slot) (h.device slot)
  · exact h.put _

/-- What one call does, with the attributes it reads filled in. -/
theorem Base.load_eq (h : p.Base layer) {rank : Fin size} {l : Load V} {shardId : Option ℤ}
    (hl : l.key = some shardId) :
    p.method.load T (tpOf rank) layer l =
      match localShard (tpOf rank) p.args.shard (p.groups.map Nat.cast) shardId with
      | none => .ok layer
      | some (shardId, skipTp) =>
        arrive T (tpOf rank) p.args.shard skipTp l.slot.suffix l.tensor >>=
          p.method.store T layer l.slot l.slot.suffix (l.shardArg.weightName l.weightName)
            shardId := by
  -- the id under which the tensor arrives
  have hid : l.shardArg.shardId = .ok shardId := by
    rw [Load.key] at hl
    cases hs : l.shardArg.shardId with
    | error e => rw [hs] at hl; cases hl
    | ok id => rw [hs] at hl; rw [Option.some.inj hl]
  -- a parameter keeps its own name
  have hname : (layer.params l.slot).name (l.shardArg.weightName l.weightName) =
      l.slot.suffix := by
    rw [Param.name, h.suffix]
  rw [Exl3LinearMethod.load, hid, ← h.shard l.slot, ← h.bmm, ← hname]
  rfl

/-! ### Fused layers -/

variable (p)

/-- The first shard of the checkpoint that a rank owns. -/
def firstShard (rank : Fin size) : ℕ :=
  match p.groups with
  | none => 0
  | some n => rank * n

/-- How many shards a rank owns. -/
def count : ℕ := p.groups.getD p.args.outputPartitionSizes.length

/-- The checkpoint's id of a rank's own shard. -/
def key (rank : Fin size) (i : ℕ) : Option ℤ := some ((p.firstShard rank + i : ℕ) : ℤ)

theorem partKeys_of_one_lt {k : ℕ} (h : 1 < k) :
    partKeys k = (List.range k).map fun i : ℕ => some (i : ℤ) := by
  obtain ⟨k, rfl⟩ := Nat.exists_eq_add_of_le' h
  rfl

variable {p}

theorem one_lt_parts (hf : p.fused = true) (hg : p.groups = none) :
    1 < p.args.outputPartitionSizes.length := by
  rw [fused, hg] at hf
  exact of_decide_eq_true hf

theorem localKeys_eq (hf : p.fused = true) (rank : Fin size) :
    p.localKeys rank = (List.range p.count).map (p.key rank) := by
  rw [localKeys, count]
  cases hg : p.groups with
  -- every part is local
  | none =>
    rw [partKeys_of_one_lt (one_lt_parts hf hg)]
    refine List.map_congr_left fun i _ => ?_
    rw [key, firstShard, hg, Nat.zero_add]
  -- the groups of this rank
  | some n =>
    refine List.map_congr_left fun i _ => ?_
    rw [key, firstShard, hg]

/-- **Which calls a rank takes.** Of the checkpoint's shards it takes its own range,
counted from its first one, and leaves the others alone. -/
theorem localShard_eq (hf : p.fused = true) (rank : Fin size) {key : Option ℤ}
    (hkey : key ∈ p.keys) : ∃ g : ℕ, key = some (g : ℤ) ∧
      localShard (tpOf rank) p.args.shard (p.groups.map Nat.cast) key =
        if p.firstShard rank ≤ g ∧ g < p.firstShard rank + p.count then
          some (some ((g : ℤ) - p.firstShard rank), p.preSliced)
        else none := by
  rw [keys] at hkey
  rw [firstShard, count, preSliced]
  cases hg : p.groups with
  -- no groups: every part is kept under its own number
  | none =>
    rw [hg] at hkey
    dsimp only at hkey
    rw [partKeys_of_one_lt (one_lt_parts hf hg)] at hkey
    obtain ⟨g, hlt, rfl⟩ := List.mem_map.mp hkey
    refine ⟨g, rfl, ?_⟩
    rw [if_pos ⟨Nat.zero_le g, by simpa using List.mem_range.mp hlt⟩, Nat.cast_zero, sub_zero]
    rfl
  -- groups: a foreign one is dropped, an own one is renumbered
  | some n =>
    rw [hg] at hkey
    obtain ⟨g, hlt, rfl⟩ := List.mem_map.mp hkey
    obtain ⟨hn, -, hcol⟩ := p.grouped n hg
    refine ⟨g, rfl, ?_⟩
    have hlt := List.mem_range.mp hlt
    have hpos : (0 : ℤ) < n := by exact_mod_cast hn
    change (if p.args.shard = .col ∧ (0 : ℤ) < n then _ else _) = _
    by_cases hsize : 1 < size
    · -- The foreign groups are dropped, and a column-parallel linear says which they are.
      have hshard : p.args.shard = .col := hcol.resolve_left (by omega)
      rw [if_pos ⟨hshard, hpos⟩, if_pos (show 1 < (tpOf rank).size from hsize), hshard]
      have hrange : ((g : ℤ) < (tpOf rank).rank * n ∨ (tpOf rank).rank * n + n ≤ (g : ℤ)) ↔
          ¬(rank * n ≤ g ∧ g < rank * n + n) := by
        change ((g : ℤ) < (rank : ℕ) * n ∨ (rank : ℕ) * n + n ≤ (g : ℤ)) ↔ _
        norm_cast
        omega
      rw [if_congr hrange rfl rfl, ite_not]
      refine ite_congr rfl (fun _ => ?_) fun _ => rfl
      rw [Nat.cast_mul]
      rfl
    · -- A single rank owns every group.
      obtain rfl : size = 1 := by have := rank.isLt; omega
      have hrank : (rank : ℕ) = 0 := by omega
      have hown : (rank : ℕ) * n ≤ g ∧ g < rank * n + (some n).getD
          p.args.outputPartitionSizes.length := by
        rw [hrank, Nat.zero_mul, Nat.zero_add]
        exact ⟨Nat.zero_le g, by simpa using hlt⟩
      rw [if_pos hown, hrank, if_neg (show ¬1 < (tpOf rank).size by simp [tpOf])]
      by_cases hshard : p.args.shard = .col
      · rw [if_pos ⟨hshard, hpos⟩, hshard]
        simp
      · rw [if_neg fun h => hshard h.1]
        simp [hshard]

/-- What the stash of a fused layer holds after some loads. -/
structure Kept (p : PackedLinear T size) (rank : Fin size) (loads : List (Load V))
    (layer : Layer V Inner) : Prop where
  base : p.Base layer
  entry : ∀ i < p.count, ∀ slot, (lastLoaded loads (p.key rank i) slot).map (p.keep rank slot) =
    (layer.fusedStash.entry i slot.suffix).map .ok
  range : ∀ i ∈ layer.fusedStash, ∃ j < p.count, i = (j : ℤ) ∧
    ∃ slot : Slot, (layer.fusedStash.entry j slot.suffix).isSome
  mcg : ∀ i, layer.fusedStash.entry i .mcg = none
  fresh : layer.fusedStash.keys = [] → layer = p.layer

theorem kept_nil (p : PackedLinear T size) (rank : Fin size) : p.Kept rank [] p.layer where
  base := p.base_layer
  entry i _ slot := by
    rw [layer_fusedStash, Stash.entry_empty]
    rfl
  range i hi := by
    rw [layer_fusedStash] at hi
    exact absurd hi (AList.notMem_empty i)
  mcg i := by rw [layer_fusedStash, Stash.entry_empty]
  fresh _ := rfl

/-- The device copy depends on the parameter's device and element type alone. -/
theorem onDevice_congr {param param' loaded : Tensor V} (hdtype : param.dtype = param'.dtype)
    (hdevice : param.device = param'.device) :
    onDevice T param loaded = onDevice T param' loaded := by
  rw [onDevice, onDevice, hdtype, hdevice]

/-- A call for one of this rank's shards puts into the stash what the rank keeps of its
tensor; a call for another rank's changes nothing. -/
theorem Base.load_fused (h : p.Base layer) (hf : p.fused = true) (rank : Fin size) {l : Load V}
    {key : Option ℤ} (hkey : key ∈ p.keys) (hl : l.key = some key) :
    (∃ i < p.count, key = p.key rank i ∧
      p.method.load T (tpOf rank) layer l = (p.keep rank l.slot l.tensor).map
        (layer.keep T l.slot (i : ℕ) l.slot.suffix)) ∨
    ((∀ i < p.count, key ≠ p.key rank i) ∧
      p.method.load T (tpOf rank) layer l = .ok layer) := by
  obtain ⟨g, rfl, hshard⟩ := localShard_eq hf rank hkey
  rw [h.load_eq hl, hshard]
  by_cases hown : p.firstShard rank ≤ g ∧ g < p.firstShard rank + p.count
  · rw [if_pos hown]
    refine .inl ⟨g - p.firstShard rank, by omega, ?_, ?_⟩
    · rw [PackedLinear.key, Nat.add_sub_cancel' hown.1]
    -- the number within the rank
    · have hid : (((g - p.firstShard rank : ℕ) : ℤ)) = (g : ℤ) - p.firstShard rank := by
        exact Nat.cast_sub hown.1
      dsimp only
      rw [PackedLinear.keep, hid]
      cases arrive T (tpOf rank) p.args.shard p.preSliced l.slot.suffix l.tensor with
      | error e => rfl
      | ok loaded =>
        -- the tensor goes where the layer's own parameters are
        have hparam : onDevice T (layer.params l.slot).tensor loaded =
            onDevice T (p.layer.params l.slot).tensor loaded :=
          onDevice_congr ((h.dtype l.slot).trans (p.base_layer.dtype l.slot).symm)
            ((h.device l.slot).trans (p.base_layer.device l.slot).symm)
        change p.method.store T layer l.slot l.slot.suffix
          (l.shardArg.weightName l.weightName) (some _) loaded = .ok _
        rw [Exl3LinearMethod.store, if_pos (show layer.fused (some _) = true from rfl), hf,
          if_pos rfl, hparam]
        rfl
  -- a shard of another rank is dropped
  · rw [if_neg hown]
    refine .inr ⟨fun i hi heq => hown ?_, rfl⟩
    -- an own shard would have a number below the count
    have hg : g = p.firstShard rank + i := by exact_mod_cast Option.some.inj heq
    omega

theorem key_injective (p : PackedLinear T size) (rank : Fin size) :
    Function.Injective (p.key rank) := by
  intro i j h
  have h : p.firstShard rank + i = p.firstShard rank + j := by exact_mod_cast Option.some.inj h
  omega

/-- **One more load.** -/
theorem Kept.snoc {rank : Fin size} {loads : List (Load V)} {layer' : Layer V Inner}
    (h : p.Kept rank loads layer) (hf : p.fused = true) {l : Load V} (he : p.Expects l)
    (hload : p.method.load T (tpOf rank) layer l = .ok layer') :
    p.Kept rank (loads ++ [l]) layer' := by
  obtain ⟨key, hkey, hl⟩ := he
  -- the load is one of an own shard, or it is dropped
  obtain ⟨i, hi, rfl, heq⟩ | ⟨hforeign, heq⟩ := h.base.load_fused hf rank hkey hl
  · rw [heq] at hload
    cases hkeep : p.keep rank l.slot l.tensor with
    | error e => rw [hkeep] at hload; cases hload
    | ok t =>
      rw [hkeep] at hload
      obtain rfl : layer.keep T l.slot i l.slot.suffix t = layer' := Except.ok.inj hload
      have hi_mem : (i : ℤ) ∈ (layer.keep T l.slot i l.slot.suffix t).fusedStash := by
        rw [Layer.fusedStash_keep, Stash.mem_put]
        exact .inl rfl
      -- the stash gains the tensor under the shard's number and its suffix
      refine ⟨h.base.keep .., fun j hj slot => ?_, fun j hj => ?_, fun j => ?_, fun hnil => ?_⟩
      -- what was last loaded for each shard and slot
      · rw [lastLoaded_snoc, Layer.fusedStash_keep, Stash.entry_put]
        by_cases hsame : j = i ∧ slot = l.slot
        · obtain ⟨rfl, rfl⟩ := hsame
          rw [if_pos ⟨hl, rfl⟩, if_pos ⟨rfl, rfl⟩, Option.map_some, Option.map_some, hkeep]
        · rw [if_neg, if_neg]
          · exact h.entry j hj slot
          · rintro ⟨hij, hslot⟩
            exact hsame ⟨by exact_mod_cast hij, Slot.suffix_injective hslot⟩
          · rintro ⟨hsupplies, hslot⟩
            rw [hl, Option.some.injEq] at hsupplies
            exact hsame ⟨(key_injective p rank hsupplies).symm, hslot.symm⟩
      -- every key of the stash is a shard of this rank
      · rw [Layer.fusedStash_keep, Stash.mem_put] at hj
        obtain rfl | hj := hj
        · refine ⟨i, hi, rfl, l.slot, ?_⟩
          rw [Layer.fusedStash_keep, Stash.entry_put, if_pos ⟨rfl, rfl⟩]
          rfl
        · obtain ⟨k, hk, rfl, slot, hslot⟩ := h.range j hj
          refine ⟨k, hk, rfl, slot, ?_⟩
          rw [Layer.fusedStash_keep, Stash.entry_put]
          split
          · rfl
          · exact hslot
      -- no load brings the marker of another format
      · rw [Layer.fusedStash_keep, Stash.entry_put, if_neg, h.mcg]
        rintro ⟨-, hslot⟩
        cases hs : l.slot <;> rw [hs] at hslot <;> cases hslot
      -- and the stash is not empty
      · rw [AList.mem_keys, hnil] at hi_mem
        cases hi_mem
  -- a dropped load changes nothing, and it is none of this rank's
  · obtain rfl : layer = layer' := Except.ok.inj (heq.symm.trans hload)
    refine ⟨h.base, fun i hi slot => ?_, h.range, h.mcg, h.fresh⟩
    rw [lastLoaded_snoc, if_neg, h.entry i hi slot]
    rintro ⟨hsupplies, -⟩
    exact hforeign i hi (Option.some.inj (hl.symm.trans hsupplies))

/-- **Any run of loads** leaves in the stash, for each shard of this rank, what it keeps
of the tensor last loaded for it. -/
theorem kept_of_loadAll (hf : p.fused = true) {rank : Fin size} {loads : List (Load V)}
    (he : ∀ l ∈ loads, p.Expects l) (h : p.loadAll rank loads = .ok layer) :
    p.Kept rank loads layer :=
  Fallible.foldlM_induction (p.Kept rank) h (p.kept_nil rank)
    fun _ l _ _ hl hkept hload => hkept.snoc hf (he l hl) hload

/-! ### Layers with a single packed matrix -/

theorem groups_eq_none (hf : p.fused = false) : p.groups = none := by
  rw [fused, Bool.or_eq_false_iff] at hf
  exact Option.isNone_iff_eq_none.mp (Option.isSome_eq_false_iff.mp hf.1)

theorem parts_le_one (hf : p.fused = false) : p.args.outputPartitionSizes.length ≤ 1 := by
  rw [fused, Bool.or_eq_false_iff] at hf
  exact not_lt.mp (of_decide_eq_false hf.2)

/-- A tensor of the checkpoint for such a layer comes without a shard id. -/
theorem eq_none_of_mem_keys (hf : p.fused = false) {key : Option ℤ} (hkey : key ∈ p.keys) :
    key = none ∧ p.args.outputPartitionSizes.length = 1 := by
  rw [keys, groups_eq_none hf] at hkey
  have hle := parts_le_one hf
  generalize p.args.outputPartitionSizes.length = k at hkey hle ⊢
  match k, hle with
  | 0, _ => cases hkey
  | 1, _ => exact ⟨List.mem_singleton.mp hkey, rfl⟩

/-- The marker arrives without dimensions, and its value is that of its one entry. -/
theorem arrive_mul1 {tp : Tp} {shard : Shard} {skipTp : Bool} {w t : Tensor V}
    (h : arrive T tp shard skipTp .mul1 w = .ok t) :
    t.shape = [] ∧ ∀ index, t.data index = t.data [] := by
  rw [arrive, Fallible.bind_eq_ok] at h
  obtain ⟨loaded, -, h⟩ := h
  -- one element is read from a marker
  rw [if_pos rfl, Fallible.bind_eq_ok] at h
  obtain ⟨marker, hmarker, h⟩ := h
  obtain rfl := Except.ok.inj h
  rw [Tensor.scalar] at hmarker
  split at hmarker
  · obtain rfl := Except.ok.inj hmarker
    exact ⟨rfl, fun _ => rfl⟩
  · cases hmarker

/-- **What `fill` leaves in a parameter**: the loaded tensor on the parameter's device, or
a scalar in a parameter that is one. -/
theorem fill_ok {m : Exl3LinearMethod} {slot : Slot} {name : Suffix}
    {weightName : Option (List Char)} {loaded : Tensor V} {layer' : Layer V Inner}
    (h : m.fill T layer slot name weightName loaded = .ok layer') :
    ∃ t, layer' = layer.write slot t ∧ t.dtype = (layer.params slot).tensor.dtype ∧
      t.device = (layer.params slot).tensor.device ∧
      ((layer.params slot).tensor.shape = [] ∧ t.shape = [] ∧
          (loaded.shape = [] → (∀ index, loaded.data index = loaded.data []) →
            t = T.h2dAlloc loaded (layer.params slot).tensor.device
              (layer.params slot).tensor.dtype) ∨
        (layer.params slot).tensor.shape ≠ [] ∧
          t = T.h2dAlloc loaded (layer.params slot).tensor.device
            (layer.params slot).tensor.dtype ∧
          (name ≠ .trellis → loaded.shape = (layer.params slot).tensor.shape)) := by
  rw [Exl3LinearMethod.fill] at h
  -- a scalar parameter takes the element that the tensor holds
  split at h
  case isTrue hdim =>
    have hparam : (layer.params slot).tensor.shape = [] := List.length_eq_zero_iff.mp hdim
    obtain ⟨marker, hmarker, h⟩ := Fallible.bind_eq_ok.mp h
    refine ⟨_, (Except.ok.inj h).symm, rfl, rfl, .inl ⟨hparam, hparam, fun hshape hdata => ?_⟩⟩
    rw [Tensor.scalar, Tensor.numel, hshape, List.prod_nil, if_pos rfl] at hmarker
    obtain rfl := Except.ok.inj hmarker
    rw [Torch.h2dAlloc, Torch.h2dCopy, Torch.h2dCopy, Torch.emptyTensor, hshape, hparam]
    refine congrArg (Tensor.mk _ _ _) (funext fun index => ?_)
    rw [hdata index]
    rfl
  -- any other takes the tensor, and only a trellis may change its shape
  case isFalse hdim =>
    have hparam : (layer.params slot).tensor.shape ≠ [] := fun hnil => hdim (by
      rw [Tensor.dim, hnil, List.length_nil])
    split at h
    case isTrue htrellis =>
      exact ⟨_, (Except.ok.inj h).symm, rfl, rfl, .inr ⟨hparam, rfl, fun hne =>
        absurd htrellis.1 hne⟩⟩
    case isFalse htrellis =>
      split at h
      · cases h
      · next hshape =>
        have hshape := not_not.mp hshape
        refine ⟨_, (Except.ok.inj h).symm, rfl, rfl, .inr ⟨hparam, ?_, fun _ => hshape.symm⟩⟩
        rw [Torch.h2dAlloc, Torch.h2dCopy, Torch.h2dCopy, Torch.emptyTensor, hshape]

/-- What the parameters of a layer with one packed matrix hold after some loads. A trellis
that was loaded without dimensions stays so, and no module is built from it. -/
structure Filled (p : PackedLinear T size) (rank : Fin size) (loads : List (Load V))
    (layer : Layer V Inner) : Prop where
  base : p.Base layer
  stash : layer.fusedStash = ∅
  shape : ∀ slot, slot ≠ .trellis → (layer.params slot).tensor.shape =
    (p.layer.params slot).tensor.shape
  entry : ∀ slot, (slot = .trellis ∧ (layer.params slot).tensor.shape = []) ∨
    match lastLoaded loads none slot with
    | none => layer.params slot = p.layer.params slot
    | some w => p.keep rank slot w = .ok (layer.params slot).tensor

theorem filled_nil (p : PackedLinear T size) (rank : Fin size) : p.Filled rank [] p.layer where
  base := p.base_layer
  stash := p.layer_fusedStash
  shape _ _ := rfl
  entry _ := .inr rfl

/-- **One more load.** -/
theorem Filled.snoc {rank : Fin size} {loads : List (Load V)} {layer' : Layer V Inner}
    (h : p.Filled rank loads layer) (hf : p.fused = false) {l : Load V} (he : p.Expects l)
    (hload : p.method.load T (tpOf rank) layer l = .ok layer') :
    p.Filled rank (loads ++ [l]) layer' := by
  obtain ⟨key, hkey, hl⟩ := he
  obtain ⟨rfl, hlen⟩ := eq_none_of_mem_keys hf hkey
  have hpre : p.preSliced = false := by rw [preSliced, groups_eq_none hf]; rfl
  -- an unfused layer stores into its parameters
  have hstays : layer.fused none = false := by
    rw [Layer.fused, h.base.parts, hlen]
    rfl
  rw [h.base.load_eq hl, groups_eq_none hf] at hload
  obtain ⟨loaded, harrive, hload⟩ := Fallible.bind_eq_ok.mp hload
  rw [Exl3LinearMethod.store, hstays, if_neg Bool.false_ne_true] at hload
  obtain ⟨t, rfl, hdtype, hdevice, hfill⟩ := fill_ok hload
  -- What the rank keeps of this tensor, in the parameter's own terms.
  have hkeep : p.keep rank l.slot l.tensor = .ok (T.h2dAlloc loaded
      (layer.params l.slot).tensor.device (layer.params l.slot).tensor.dtype) := by
    rw [PackedLinear.keep, hpre, harrive, hf, h.base.device, h.base.dtype,
      p.layer_params l.slot]
    rfl
  -- the parameters keep their dtype and device
  refine ⟨h.base.write (hdtype.trans (h.base.dtype _)) (hdevice.trans (h.base.device _)),
    h.stash, fun slot hslot => ?_, fun slot => ?_⟩
  -- only the trellis may have changed its shape
  · rw [Layer.params_write]
    split
    · next hs =>
      subst hs
      rw [← h.shape l.slot hslot]
      obtain ⟨hparam, ht, -⟩ | ⟨-, rfl, hshape⟩ := hfill
      · exact ht.trans hparam.symm
      · exact hshape fun hname => hslot (Slot.suffix_injective hname)
    · exact h.shape slot hslot
  -- the slot holds what was last loaded for it
  · rw [lastLoaded_snoc, Layer.params_write]
    by_cases hs : slot = l.slot
    · subst hs
      rw [if_pos rfl, if_pos ⟨hl, rfl⟩]
      change (l.slot = .trellis ∧ t.shape = []) ∨ p.keep rank l.slot l.tensor = .ok t
      rw [hkeep]
      obtain ⟨hparam, ht, hscalar⟩ | ⟨-, rfl, -⟩ := hfill
      · cases hslot : l.slot with
        | trellis => exact .inl ⟨rfl, ht⟩
        | mul1 =>
          rw [hslot] at harrive
          obtain ⟨hshape, hdata⟩ := arrive_mul1 harrive
          exact .inr (congrArg Except.ok (hslot ▸ (hscalar hshape hdata).symm))
        | suh =>
          rw [hslot, h.shape .suh (by decide), p.layer_params] at hparam
          cases hparam
        | svh =>
          rw [hslot, h.shape .svh (by decide), p.layer_params] at hparam
          cases hparam
      · exact .inr rfl
    · rw [if_neg hs, if_neg fun hsupplies => hs hsupplies.2.symm]
      exact h.entry slot

/-- **Any run of loads** leaves in each parameter what the rank keeps of the tensor last
loaded for it, or what it held when it was created. -/
theorem filled_of_loadAll (hf : p.fused = false) {rank : Fin size} {loads : List (Load V)}
    (he : ∀ l ∈ loads, p.Expects l) (h : p.loadAll rank loads = .ok layer) :
    p.Filled rank loads layer :=
  Fallible.foldlM_induction (p.Filled rank) h (p.filled_nil rank)
    fun _ l _ _ hl hfilled hload => hfilled.snoc hf (he l hl) hload

end PackedLinear

end Dsv41Overlay.Linear
