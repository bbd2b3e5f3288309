import Dsv41Overlay.Linear.Loads

/-!
# Serving a partly loaded linear

`process_weights_after_loading` refuses a stash with a hole in it, but how far it
looks depends on the layer. For a merged linear it asks for every output partition.
For a grouped linear it asks for the groups up to the largest one that arrived, so a
layer whose last groups never arrived is served with too few modules, and `apply` then
runs them one after another over the whole input (`forwardAll_short`). A layer for
which nothing arrived, or with a single packed matrix some tensor of which never
arrived, is built from parameters as `torch.empty` left them.

`Gap` collects these cases and `neverPartlyServed_iff` says that they are all: outside
them a layer that is not refused serves one module for each shard of its rank, built
from the tensors last loaded for it. Slices of other ranks' groups have no part in any
of this, and every group has one rank that keeps it.
-/

namespace Dsv41Overlay.Linear

variable {V Inner : Type}

/-! ### What is built -/

/-- With nothing in the stash the module is built from the parameters. -/
theorem Exl3LinearMethod.processWeights_params (m : Exl3LinearMethod) (T : Torch V Inner)
    {layer layer' : Layer V Inner} (h : layer.fusedStash.keys = []) :
    m.processWeights T layer = .ok layer' ↔
      ∃ inner k, m.makeLinear T (layer.params .trellis).tensor (layer.params .suh).tensor
          (layer.params .svh).tensor (some (layer.params .mul1).tensor) = .ok inner ∧
        kOf (layer.params .trellis).tensor = .ok k ∧
        layer' = { layer with inner := some inner, k := k } := by
  rw [Exl3LinearMethod.processWeights, if_neg (not_not.mpr h)]
  constructor
  · intro hok
    obtain ⟨inner, hinner, hok⟩ := Fallible.bind_eq_ok.mp hok
    obtain ⟨k, hk, hok⟩ := Fallible.bind_eq_ok.mp hok
    exact ⟨inner, k, hinner, hk, (Except.ok.inj hok).symm⟩
  · rintro ⟨inner, k, hinner, hk, rfl⟩
    exact Fallible.bind_eq_ok.mpr ⟨inner, hinner, Fallible.bind_eq_ok.mpr ⟨k, hk, rfl⟩⟩

/-- Otherwise one module is built for each shard the stash is read for. -/
theorem Exl3LinearMethod.processWeights_stash (m : Exl3LinearMethod) (T : Torch V Inner)
    {layer layer' : Layer V Inner} (h : layer.fusedStash.keys ≠ []) :
    m.processWeights T layer = .ok layer' ↔
      ∃ inners trellis k,
        (List.range layer.shards).mapM (m.innerOf T layer.fusedStash) = .ok inners ∧
        layer.fusedStash.entry 0 .trellis = some trellis ∧ kOf trellis = .ok k ∧
        layer' = { layer with inners := some inners, inner := none, k := k } := by
  rw [Exl3LinearMethod.processWeights, if_pos h]
  constructor
  -- the inner modules, then the `k` of the first trellis
  · intro hok
    obtain ⟨inners, hinners, hok⟩ := Fallible.bind_eq_ok.mp hok
    split at hok
    · cases hok
    · next trellis htrellis =>
      obtain ⟨k, hk, hok⟩ := Fallible.bind_eq_ok.mp hok
      exact ⟨inners, trellis, k, hinners, htrellis, hk, (Except.ok.inj hok).symm⟩
  -- and each of the three steps goes through
  · rintro ⟨inners, trellis, k, hinners, htrellis, hk, rfl⟩
    refine Fallible.bind_eq_ok.mpr ⟨inners, hinners, ?_⟩
    rw [htrellis]
    exact Fallible.bind_eq_ok.mpr ⟨k, hk, rfl⟩

theorem kOf_eq_ok {t : Tensor V} : (∃ k, kOf t = .ok k) ↔ t.shape ≠ [] := by
  rw [kOf]
  cases h : t.shape.getLast? with
  | none =>
    rw [List.getLast?_eq_none_iff.mp h]
    constructor
    · rintro ⟨k, hk⟩
      cases hk
    · intro hne
      exact absurd rfl hne
  -- a tensor of at least one axis has a last one
  | some words =>
    refine ⟨fun _ hnil => ?_, fun _ => ⟨_, rfl⟩⟩
    rw [hnil] at h
    cases h

/-- A module from the stash needs all four tensors of its shard. -/
theorem Exl3LinearMethod.innerOf_eq_ok (m : Exl3LinearMethod) (T : Torch V Inner)
    {stash : Stash V} {i : ℕ} {inner : Inner} (hmcg : stash.entry i .mcg = none) :
    m.innerOf T stash i = .ok inner ↔
      ∃ trellis suh svh marker, stash.entry i .trellis = some trellis ∧
        stash.entry i .suh = some suh ∧ stash.entry i .svh = some svh ∧
        stash.entry i .mul1 = some marker ∧
        m.makeLinear T trellis suh svh (some marker) = .ok inner := by
  rw [Exl3LinearMethod.innerOf, hmcg, Option.or_none]
  constructor
  · intro h
    -- all three tensors are in the stash
    split at h
    · next trellis suh svh htrellis hsuh hsvh =>
      -- so is the marker, or the constructor gets none
      cases hmarker : stash.entry i .mul1 with
      | none => rw [hmarker] at h; cases h
      | some marker =>
        rw [hmarker] at h
        exact ⟨trellis, suh, svh, marker, htrellis, hsuh, hsvh, rfl, h⟩
    · cases h
  · rintro ⟨trellis, suh, svh, marker, htrellis, hsuh, hsvh, hmarker, h⟩
    rw [htrellis, hsuh, hsvh, hmarker]
    exact h

namespace PackedLinear

variable {T : Torch V Inner} {size : ℕ} (p : PackedLinear T size)

/-! ### The property and its condition -/

/-- A tensor is what a rank keeps of the one last loaded for a shard. -/
def FromLast (rank : Fin size) (loads : List (Load V)) (key : Option ℤ) (slot : Slot)
    (t : Tensor V) : Prop :=
  ∃ w, lastLoaded loads key slot = some w ∧ p.keep rank slot w = .ok t

/-- A module built from the tensors last loaded for a shard. -/
def BuiltFrom (rank : Fin size) (loads : List (Load V)) (key : Option ℤ) (inner : Inner) : Prop :=
  ∃ trellis suh svh marker, p.FromLast rank loads key .trellis trellis ∧
    p.FromLast rank loads key .suh suh ∧ p.FromLast rank loads key .svh svh ∧
    p.method.makeLinear T trellis suh svh (some marker) = .ok inner

/-- The call is for a shard that the rank serves. -/
def Owns (rank : Fin size) (l : Load V) : Prop := ∃ key ∈ p.localKeys rank, l.key = some key

instance (rank : Fin size) (l : Load V) : Decidable (p.Owns rank l) :=
  inferInstanceAs (Decidable (∃ key ∈ p.localKeys rank, l.key = some key))

/-- A partly loaded packed linear is never served: a layer that is not refused serves one
module for each of its rank's shards, in order, built from the tensors last loaded for it;
the calls for other ranks' groups leave no trace; and each call for a group is taken by
exactly one rank. -/
structure NeverPartlyServed (rank : Fin size) (loads : List (Load V)) (layer : Layer V Inner) :
    Prop where
  served : ∀ layer', p.method.processWeights T layer = .ok layer' →
    List.Forall₂ (p.BuiltFrom rank loads) (p.localKeys rank) layer'.served
  foreign : p.loadAll rank (loads.filter fun l => decide (p.Owns rank l)) = .ok layer
  keptOnce : p.groups.isSome → ∀ l, p.Expects l →
    ∃! r : Fin size, p.method.load T (tpOf r) p.layer l ≠ .ok p.layer

/-- `LinearEXL3` takes the parameters as they stand. -/
def Accepts (layer : Layer V Inner) : Prop :=
  (∃ inner, p.method.makeLinear T (layer.params .trellis).tensor (layer.params .suh).tensor
    (layer.params .svh).tensor (some (layer.params .mul1).tensor) = .ok inner) ∧
  (layer.params .trellis).tensor.shape ≠ []

/-- All four tensors of a shard have been loaded and `LinearEXL3` takes them. -/
def Complete (rank : Fin size) (loads : List (Load V)) (i : ℕ) : Prop :=
  ∃ trellis suh svh marker, p.FromLast rank loads (p.key rank i) .trellis trellis ∧
    p.FromLast rank loads (p.key rank i) .suh suh ∧
    p.FromLast rank loads (p.key rank i) .svh svh ∧
    p.FromLast rank loads (p.key rank i) .mul1 marker ∧
    (∃ inner, p.method.makeLinear T trellis suh svh (some marker) = .ok inner) ∧
    (i = 0 → trellis.shape ≠ [])

/-- The loads that are served although tensors are missing. -/
inductive Gap (rank : Fin size) (loads : List (Load V)) (layer : Layer V Inner) : Prop
  | nothingLoaded
      (nothing : ∀ key ∈ p.localKeys rank, ∀ slot, lastLoaded loads key slot = none)
      (accepts : p.Accepts layer)
  | tensorMissing (single : p.fused = false) (slot : Slot) (packed : slot ≠ .mul1)
      (missing : lastLoaded loads none slot = none) (accepts : p.Accepts layer)
  | trailingMissing (n k : ℕ) (groups : p.groups = some n) (pos : 0 < k) (lt : k < n)
      (complete : ∀ i < k, p.Complete rank loads i)
      (missing : ∀ i, k ≤ i → i < n → ∀ slot, lastLoaded loads (p.key rank i) slot = none)

variable {p} {rank : Fin size} {loads : List (Load V)} {layer : Layer V Inner}

/-- With nothing in the stash, a layer is refused unless `LinearEXL3` takes the
parameters. -/
theorem accepts_iff (hkeys : layer.fusedStash.keys = []) :
    p.Accepts layer ↔ ∃ layer', p.method.processWeights T layer = .ok layer' := by
  constructor
  · rintro ⟨⟨inner, hinner⟩, hshape⟩
    obtain ⟨k, hk⟩ := kOf_eq_ok.mpr hshape
    exact ⟨_, (p.method.processWeights_params T hkeys).mpr ⟨inner, k, hinner, hk, rfl⟩⟩
  · rintro ⟨layer', hok⟩
    obtain ⟨inner, k, hinner, hk, -⟩ := (p.method.processWeights_params T hkeys).mp hok
    exact ⟨⟨inner, hinner⟩, kOf_eq_ok.mp ⟨k, hk⟩⟩

/-- A layer built from its parameters serves one module. -/
theorem Base.served_params (h : p.Base layer) (hkeys : layer.fusedStash.keys = [])
    {layer' : Layer V Inner} (hok : p.method.processWeights T layer = .ok layer') :
    ∃ inner, layer'.served = [inner] ∧
      p.method.makeLinear T (layer.params .trellis).tensor (layer.params .suh).tensor
        (layer.params .svh).tensor (some (layer.params .mul1).tensor) = .ok inner := by
  obtain ⟨inner, k, hinner, -, rfl⟩ := (p.method.processWeights_params T hkeys).mp hok
  refine ⟨inner, ?_, hinner⟩
  rw [Layer.served, h.inners]
  rfl

/-! ### Layers with a single packed matrix -/

theorem localKeys_single (rank : Fin size) (hf : p.fused = false) :
    p.localKeys rank = [] ∨ p.localKeys rank = [none] := by
  rw [localKeys, groups_eq_none hf]
  have hle := parts_le_one hf
  generalize p.args.outputPartitionSizes.length = k at hle ⊢
  obtain rfl | rfl := Nat.le_one_iff_eq_zero_or_eq_one.mp hle
  · exact .inl rfl
  · exact .inr rfl

/-- A loaded parameter of a layer that is not refused holds what was last loaded for it. -/
theorem Filled.fromLast (h : p.Filled rank loads layer) {slot : Slot}
    (hshape : (layer.params .trellis).tensor.shape ≠ [])
    (hloaded : lastLoaded loads none slot ≠ none) :
    p.FromLast rank loads none slot (layer.params slot).tensor := by
  obtain ⟨rfl, hnil⟩ | hentry := h.entry slot
  · exact absurd hnil hshape
  · cases hlast : lastLoaded loads none slot with
    | none => exact absurd hlast hloaded
    | some w =>
      rw [hlast] at hentry
      exact ⟨w, hlast, hentry⟩

theorem Filled.served_iff (h : p.Filled rank loads layer) (hf : p.fused = false) :
    (∀ layer', p.method.processWeights T layer = .ok layer' →
      List.Forall₂ (p.BuiltFrom rank loads) (p.localKeys rank) layer'.served) ↔
    ¬p.Gap rank loads layer := by
  have hkeys : layer.fusedStash.keys = [] := by rw [h.stash]; rfl
  constructor
  · intro hserved hgap
    -- Every gap leaves a module without its tensors.
    have missing : p.Accepts layer →
        (p.localKeys rank = [none] → ∃ slot, slot ≠ .mul1 ∧ lastLoaded loads none slot = none) →
        False := by
      intro haccepts hslot
      obtain ⟨layer', hok⟩ := (accepts_iff hkeys).mp haccepts
      obtain ⟨inner, hinner, -⟩ := h.base.served_params hkeys hok
      have hbuilt := hserved layer' hok
      rw [hinner] at hbuilt
      -- the module is local, or it is of no rank
      obtain hlocal | hlocal := localKeys_single rank hf
      · rw [hlocal] at hbuilt
        cases hbuilt
      · rw [hlocal] at hbuilt
        obtain _ | ⟨⟨_, _, _, _, ⟨_, htrellis, -⟩, ⟨_, hsuh, -⟩, ⟨_, hsvh, -⟩, -⟩, -⟩ := hbuilt
        obtain ⟨slot, hmul1, hnone⟩ := hslot hlocal
        cases slot with
        | trellis => rw [hnone] at htrellis; cases htrellis
        | suh => rw [hnone] at hsuh; cases hsuh
        | svh => rw [hnone] at hsvh; cases hsvh
        | mul1 => exact hmul1 rfl
    -- a part that is missing, for each kind of gap
    cases hgap with
    | nothingLoaded nothing accepts =>
      refine missing accepts fun hlocal => ⟨.trellis, by decide, nothing none ?_ .trellis⟩
      rw [hlocal]
      exact List.mem_singleton_self _
    | tensorMissing _ slot packed hmissing accepts =>
      exact missing accepts fun _ => ⟨slot, packed, hmissing⟩
    | trailingMissing n k groups =>
      rw [groups_eq_none hf] at groups
      cases groups
  -- without a gap every tensor of the module was loaded
  · intro hgap layer' hok
    have haccepts := (accepts_iff hkeys).mpr ⟨layer', hok⟩
    obtain ⟨inner, hinner, hmake⟩ := h.base.served_params hkeys hok
    rw [hinner]
    obtain hlocal | hlocal := localKeys_single rank hf
    · refine absurd (.nothingLoaded (fun key hkey => ?_) haccepts) hgap
      rw [hlocal] at hkey
      cases hkey
    · have hloaded : ∀ slot, slot ≠ .mul1 → lastLoaded loads none slot ≠ none :=
        fun slot hmul1 hnone => hgap (.tensorMissing hf slot hmul1 hnone haccepts)
      rw [hlocal]
      exact .cons ⟨_, _, _, _, h.fromLast haccepts.2 (hloaded .trellis (by decide)),
        h.fromLast haccepts.2 (hloaded .suh (by decide)),
        h.fromLast haccepts.2 (hloaded .svh (by decide)), hmake⟩ .nil

/-! ### Fused layers -/

/-- The stash entry of a shard is what the rank keeps of the tensor last loaded for it. -/
theorem Kept.entry_iff (h : p.Kept rank loads layer) {i : ℕ} (hi : i < p.count) (slot : Slot)
    {t : Tensor V} : layer.fusedStash.entry i slot.suffix = some t ↔
      p.FromLast rank loads (p.key rank i) slot t := by
  -- what the stash holds is what the rank keeps of the last tensor
  have hentry := h.entry i hi slot
  constructor
  · intro ht
    rw [ht, Option.map_some, Option.map_eq_some_iff] at hentry
    exact hentry
  · rintro ⟨w, hw, hkeep⟩
    rw [hw, Option.map_some, hkeep] at hentry
    obtain ⟨t', ht', heq⟩ := Option.map_eq_some_iff.mp hentry.symm
    rw [ht', Except.ok.inj heq]

theorem Kept.entry_eq_none (h : p.Kept rank loads layer) {i : ℕ} (hi : i < p.count)
    (slot : Slot) : layer.fusedStash.entry i slot.suffix = none ↔
      lastLoaded loads (p.key rank i) slot = none := by
  have hentry := h.entry i hi slot
  rw [← Option.map_eq_none_iff (f := Except.ok (ε := LinearError)), ← hentry,
    Option.map_eq_none_iff]

/-- A shard is in the stash once any of its tensors has been loaded. -/
theorem Kept.mem_iff (h : p.Kept rank loads layer) {i : ℕ} (hi : i < p.count) :
    (i : ℤ) ∈ layer.fusedStash ↔ ∃ slot, lastLoaded loads (p.key rank i) slot ≠ none := by
  constructor
  -- a shard in the stash has a tensor in one slot
  · intro hmem
    obtain ⟨j, -, hij, slot, hslot⟩ := h.range i hmem
    obtain rfl : i = j := by exact_mod_cast hij
    refine ⟨slot, fun hnone => ?_⟩
    rw [(h.entry_eq_none hi slot).mpr hnone] at hslot
    cases hslot
  -- and a loaded tensor is in the stash
  · rintro ⟨slot, hslot⟩
    by_contra hmem
    refine hslot ((h.entry_eq_none hi slot).mp ?_)
    rw [Stash.entry, AList.lookup_eq_none.mpr hmem]
    rfl

/-- A module is built for a shard exactly when the shard is complete. -/
theorem Kept.innerOf_iff (h : p.Kept rank loads layer) {i : ℕ} (hi : i < p.count)
    {inner : Inner} : p.method.innerOf T layer.fusedStash i = .ok inner ↔
      ∃ trellis suh svh marker, p.FromLast rank loads (p.key rank i) .trellis trellis ∧
        p.FromLast rank loads (p.key rank i) .suh suh ∧
        p.FromLast rank loads (p.key rank i) .svh svh ∧
        p.FromLast rank loads (p.key rank i) .mul1 marker ∧
        p.method.makeLinear T trellis suh svh (some marker) = .ok inner := by
  simp only [p.method.innerOf_eq_ok T (h.mcg i), ← h.entry_iff hi]
  rfl

theorem Kept.builtFrom (h : p.Kept rank loads layer) {i : ℕ} (hi : i < p.count) {inner : Inner}
    (hinner : p.method.innerOf T layer.fusedStash i = .ok inner) :
    p.BuiltFrom rank loads (p.key rank i) inner := by
  obtain ⟨trellis, suh, svh, marker, htrellis, hsuh, hsvh, -, hmake⟩ := (h.innerOf_iff hi).mp hinner
  exact ⟨trellis, suh, svh, marker, htrellis, hsuh, hsvh, hmake⟩

/-- How many modules a fused layer asks its stash for: those of all its parts, or those up
to the largest group that arrived. -/
theorem Kept.shards_spec (h : p.Kept rank loads layer) (hf : p.fused = true)
    (hkeys : layer.fusedStash.keys ≠ []) :
    (p.groups = none ∧ layer.shards = p.count) ∨
    (∃ n, p.groups = some n ∧ p.count = n ∧ 0 < layer.shards ∧ layer.shards ≤ n ∧
      ((layer.shards - 1 : ℕ) : ℤ) ∈ layer.fusedStash ∧
      ∀ i : ℕ, (i : ℤ) ∈ layer.fusedStash → i < layer.shards) := by
  rw [Layer.shards, h.base.parts]
  cases hg : p.groups with
  -- parts: as many modules as parts
  | none =>
    refine .inl ⟨rfl, ?_⟩
    rw [if_pos (one_lt_parts hf hg), count, hg]
    rfl
  | some n =>
    -- groups: one more than the largest number in the stash
    obtain ⟨-, hparts, -⟩ := p.grouped n hg
    have hcount : p.count = n := by rw [count, hg]; rfl
    rw [if_neg (by omega)]
    cases hmax : layer.fusedStash.keys.max? with
    -- the stash is not empty, so it has a largest number
    | none => exact absurd (List.max?_eq_none_iff.mp hmax) hkeys
    | some top =>
      obtain ⟨hmem, hle⟩ := List.max?_eq_some_iff.mp hmax
      obtain ⟨j, hj, rfl, -⟩ := h.range top hmem
      have hshards : ((some (j : ℤ)).getD (-1) + 1).toNat = j + 1 := by simp
      rw [hshards]
      refine .inr ⟨n, rfl, hcount, Nat.succ_pos j, by omega, hmem, fun i hi => ?_⟩
      have hij : (i : ℤ) ≤ j := hle i hi
      omega

theorem Kept.complete_iff (h : p.Kept rank loads layer) {i : ℕ} (hi : i < p.count) :
    p.Complete rank loads i ↔ (∃ inner, p.method.innerOf T layer.fusedStash i = .ok inner) ∧
      (i = 0 → ∃ trellis k, layer.fusedStash.entry i .trellis = some trellis ∧
        kOf trellis = .ok k) := by
  constructor
  -- a complete shard has the tensors its module is made of, and a trellis with an axis
  · rintro ⟨trellis, suh, svh, marker, htrellis, hsuh, hsvh, hmarker, ⟨inner, hmake⟩, hshape⟩
    refine ⟨⟨inner, (h.innerOf_iff hi).mpr
      ⟨trellis, suh, svh, marker, htrellis, hsuh, hsvh, hmarker, hmake⟩⟩, fun hzero => ?_⟩
    obtain ⟨k, hk⟩ := kOf_eq_ok.mpr (hshape hzero)
    exact ⟨trellis, k, (h.entry_iff hi .trellis).mpr htrellis, hk⟩
  -- and what the module was made of had been loaded
  · rintro ⟨⟨inner, hinner⟩, hzero⟩
    obtain ⟨trellis, suh, svh, marker, htrellis, hsuh, hsvh, hmarker, hmake⟩ :=
      (h.innerOf_iff hi).mp hinner
    refine ⟨trellis, suh, svh, marker, htrellis, hsuh, hsvh, hmarker, ⟨inner, hmake⟩,
      fun hi0 => ?_⟩
    obtain ⟨trellis', k, htrellis', hk⟩ := hzero hi0
    have hsame := (h.entry_iff hi .trellis).mpr htrellis
    obtain rfl := Option.some.inj (hsame.symm.trans htrellis')
    exact kOf_eq_ok.mp ⟨k, hk⟩

/-- A layer whose stash is read for `k` shards is served once these are complete. -/
theorem Kept.processWeights_of_complete (h : p.Kept rank loads layer)
    (hkeys : layer.fusedStash.keys ≠ []) (hpos : 0 < layer.shards) (hle : layer.shards ≤ p.count)
    (hcomplete : ∀ i < layer.shards, p.Complete rank loads i) :
    ∃ layer', p.method.processWeights T layer = .ok layer' ∧
      layer'.served.length = layer.shards := by
  -- each module is made, and the first trellis has a `k`
  obtain ⟨inners, hinners⟩ := Fallible.exists_mapM_eq_ok.mpr fun i hi =>
    ((h.complete_iff ((List.mem_range.mp hi).trans_le hle)).mp
      (hcomplete i (List.mem_range.mp hi))).1
  obtain ⟨trellis, k, htrellis, hk⟩ :=
    ((h.complete_iff (hpos.trans_le hle)).mp (hcomplete 0 hpos)).2 rfl
  refine ⟨_, (p.method.processWeights_stash T hkeys).mpr
    ⟨inners, trellis, k, hinners, htrellis, hk, rfl⟩, ?_⟩
  have hlength := (Fallible.mapM_eq_ok.mp hinners).length_eq
  rw [List.length_range] at hlength
  exact hlength.symm

theorem Kept.served_iff (h : p.Kept rank loads layer) (hf : p.fused = true) (hpos : 0 < p.count) :
    (∀ layer', p.method.processWeights T layer = .ok layer' →
      List.Forall₂ (p.BuiltFrom rank loads) (p.localKeys rank) layer'.served) ↔
    ¬p.Gap rank loads layer := by
  rw [localKeys_eq hf]
  have hzero : p.key rank 0 ∈ (List.range p.count).map (p.key rank) :=
    List.mem_map_of_mem (List.mem_range.mpr hpos)
  by_cases hkeys : layer.fusedStash.keys = []
  · -- Nothing arrived: the module would be built from the parameters.
    have hnone : ∀ i < p.count, ∀ slot, lastLoaded loads (p.key rank i) slot = none := by
      intro i hi slot
      by_contra hsome
      have hmem := (h.mem_iff hi).mpr ⟨slot, hsome⟩
      rw [AList.mem_keys, hkeys] at hmem
      cases hmem
    -- a module built from nothing would be a gap
    constructor
    · intro hserved hgap
      have haccepts : ¬p.Accepts layer := by
        intro haccepts
        obtain ⟨layer', hok⟩ := (accepts_iff hkeys).mp haccepts
        obtain ⟨inner, hinner, -⟩ := h.base.served_params hkeys hok
        have hbuilt := hserved layer' hok
        rw [hinner] at hbuilt
        obtain ⟨c, hc⟩ := Nat.exists_eq_succ_of_ne_zero hpos.ne'
        rw [hc, List.range_succ_eq_map, List.map_cons] at hbuilt
        obtain _ | ⟨⟨_, _, _, _, ⟨w, hw, -⟩, -⟩, -⟩ := hbuilt
        rw [hnone 0 hpos] at hw
        cases hw
      cases hgap with
      | nothingLoaded _ accepts => exact haccepts accepts
      | tensorMissing single => rw [hf] at single; cases single
      | trailingMissing n k groups pos _ complete =>
        obtain ⟨_, _, _, _, ⟨w, hw, -⟩, -⟩ := complete 0 pos
        rw [hnone 0 hpos] at hw
        cases hw
    -- and without a gap nothing is built
    · intro hgap layer' hok
      refine absurd (.nothingLoaded ?_ ((accepts_iff hkeys).mpr ⟨layer', hok⟩)) hgap
      rw [localKeys_eq hf]
      intro key hkey slot
      obtain ⟨i, hi, rfl⟩ := List.mem_map.mp hkey
      exact hnone i (List.mem_range.mp hi) slot
  · have hspec := h.shards_spec hf hkeys
    -- every kind of gap contradicts a complete list of modules
    constructor
    · intro hserved hgap
      cases hgap with
      | nothingLoaded nothing =>
        rw [localKeys_eq hf] at nothing
        obtain ⟨i, hi⟩ := List.exists_mem_of_ne_nil _ hkeys
        obtain ⟨j, hj, rfl, slot, hslot⟩ := h.range i hi
        have hnone := nothing _ (List.mem_map_of_mem (List.mem_range.mpr hj)) slot
        rw [(h.entry_eq_none hj slot).mpr hnone] at hslot
        cases hslot
      | tensorMissing single => rw [hf] at single; cases single
      | trailingMissing n k groups pos lt complete missing =>
        obtain ⟨hg, -⟩ | ⟨n', hn', hcount, hpos', hle, htop, hmem⟩ := hspec
        · rw [groups] at hg
          cases hg
        · obtain rfl : n = n' := Option.some.inj (groups.symm.trans hn')
          -- The stash is read for exactly the groups before the missing ones.
          have hshards : layer.shards = k := by
            have htop_lt : layer.shards - 1 < k := by
              by_contra hge
              obtain ⟨slot, hslot⟩ := (h.mem_iff (by omega)).mp htop
              exact hslot (missing _ (by omega) (by omega) slot)
            have hlast : ((k - 1 : ℕ) : ℤ) ∈ layer.fusedStash := by
              obtain ⟨_, _, _, _, ⟨w, hw, -⟩, -⟩ := complete (k - 1) (by omega)
              refine (h.mem_iff (by omega)).mpr ⟨.trellis, ?_⟩
              rw [hw]
              exact Option.some_ne_none w
            have := hmem _ hlast
            omega
          obtain ⟨layer', hok, hlength⟩ := h.processWeights_of_complete hkeys hpos' (by omega)
            fun i hi => complete i (hshards ▸ hi)
          have hsame := (hserved layer' hok).length_eq
          rw [List.length_map, List.length_range] at hsame
          omega
    -- no gap: the shards run over all parts
    · intro hgap layer' hok
      obtain ⟨inners, trellis, k, hinners, htrellis, hk, rfl⟩ :=
        (p.method.processWeights_stash T hkeys).mp hok
      have hcount : layer.shards = p.count := by
        obtain ⟨-, hall⟩ | ⟨n, hn, hcount, hpos', hle, -, hmem⟩ := hspec
        · exact hall
        -- else a trailing one would be missing
        · by_contra hne
          refine hgap (.trailingMissing n layer.shards hn hpos' (by omega) (fun i hi => ?_)
            fun i hi hin slot => ?_)
          · rw [h.complete_iff (by omega)]
            constructor
            · exact Fallible.exists_mapM_eq_ok.mp ⟨inners, hinners⟩ i (List.mem_range.mpr hi)
            · rintro rfl
              exact ⟨trellis, k, htrellis, hk⟩
          · by_contra hsome
            have := hmem i ((h.mem_iff (by omega)).mpr ⟨slot, hsome⟩)
            omega
      change List.Forall₂ _ _ inners
      rw [hcount] at hinners
      have hrange : ∀ i ∈ List.range p.count, i < p.count := fun i => List.mem_range.mp
      -- and each module is built from what was loaded
      refine List.forall₂_map_left_iff.mpr ?_
      exact ((List.forall₂_and_left _ _).mpr ⟨hrange, Fallible.mapM_eq_ok.mp hinners⟩).imp
        fun i inner hinner => h.builtFrom hinner.1 hinner.2

/-! ### The other ranks -/

theorem count_pos (hf : p.fused = true) : 0 < p.count := by
  rw [count]
  cases hg : p.groups with
  | none => exact Nat.zero_lt_of_lt (one_lt_parts hf hg)
  | some n => exact (p.grouped n hg).1

/-- **Calls for other ranks' groups leave no trace.** -/
theorem loadAll_owned (he : ∀ l ∈ loads, p.Expects l) (h : p.loadAll rank loads = .ok layer) :
    p.loadAll rank (loads.filter fun l => decide (p.Owns rank l)) = .ok layer := by
  cases hf : p.fused with
  -- an unfused linear owns every load
  | false =>
    rw [List.filter_eq_self.mpr fun l hl => decide_eq_true ?_]
    · exact h
    · obtain ⟨key, hkey, hl⟩ := he l hl
      refine ⟨key, ?_, hl⟩
      rw [keys, groups_eq_none hf] at hkey
      rw [localKeys, groups_eq_none hf]
      exact hkey
  -- a fused one drops the loads it does not own
  | true =>
    refine (Fallible.foldlM_induction (fun done layer => p.Base layer ∧
      p.loadAll rank (done.filter fun l => decide (p.Owns rank l)) = .ok layer) h
      ⟨p.base_layer, rfl⟩ ?_).2
    rintro done l t t' hl ⟨hbase, hdone⟩ hload
    obtain ⟨key, hkey, hl⟩ := he l hl
    rw [List.filter_append, loadAll, List.foldlM_append]
    -- the next load is owned, or it changes nothing
    obtain ⟨i, hi, rfl, heq⟩ | ⟨hforeign, heq⟩ := hbase.load_fused hf rank hkey hl
    · have hown : p.Owns rank l := by
        refine ⟨_, ?_, hl⟩
        rw [localKeys_eq hf]
        exact List.mem_map_of_mem (List.mem_range.mpr hi)
      rw [List.filter_singleton, decide_eq_true hown]
      constructor
      · rw [heq] at hload
        cases hkeep : p.keep rank l.slot l.tensor with
        | error e => rw [hkeep] at hload; cases hload
        | ok kept =>
          rw [hkeep] at hload
          obtain rfl := Except.ok.inj hload
          exact hbase.keep ..
      · refine Fallible.bind_eq_ok.mpr ⟨t, hdone, ?_⟩
        exact Fallible.bind_eq_ok.mpr ⟨t', hload, rfl⟩
    · obtain rfl := Except.ok.inj (heq.symm.trans hload)
      have hnot : ¬p.Owns rank l := by
        rintro ⟨key', hkey', hl'⟩
        obtain rfl := Option.some.inj (hl.symm.trans hl')
        rw [localKeys_eq hf] at hkey'
        obtain ⟨i, hi, rfl⟩ := List.mem_map.mp hkey'
        exact hforeign i (List.mem_range.mp hi) rfl
      rw [List.filter_singleton, decide_eq_false hnot]
      exact ⟨hbase, Fallible.bind_eq_ok.mpr ⟨t, hdone, rfl⟩⟩

/-- A rank takes a call for a group exactly when the group is one of its own. -/
theorem load_ne_iff (hf : p.fused = true) (r : Fin size) {l : Load V} {key : Option ℤ}
    (hkey : key ∈ p.keys) (hl : l.key = some key) :
    p.method.load T (tpOf r) p.layer l ≠ .ok p.layer ↔ ∃ i < p.count, key = p.key r i := by
  obtain ⟨i, hi, hki, heq⟩ | ⟨hforeign, heq⟩ := p.base_layer.load_fused hf r hkey hl
  -- an owned load leaves a tensor in the stash
  · refine ⟨fun _ => ⟨i, hi, hki⟩, fun _ hsame => ?_⟩
    rw [heq] at hsame
    cases hkeep : p.keep r l.slot l.tensor with
    | error e => rw [hkeep] at hsame; cases hsame
    | ok t =>
      rw [hkeep] at hsame
      have hstash := congrArg Layer.fusedStash (Except.ok.inj hsame)
      rw [Layer.fusedStash_keep, layer_fusedStash] at hstash
      have hmem := (Stash.mem_put ∅ (i : ℤ) i l.slot.suffix t).mpr (.inl rfl)
      rw [hstash] at hmem
      exact AList.notMem_empty _ hmem
  -- a foreign one leaves the layer alone
  · refine ⟨fun hne => absurd heq hne, ?_⟩
    rintro ⟨i, hi, rfl⟩
    exact absurd rfl (hforeign i hi)

/-- **Every group is kept by exactly one rank.** -/
theorem existsUnique_keeps (hg : p.groups.isSome) {l : Load V} (he : p.Expects l) :
    ∃! r : Fin size, p.method.load T (tpOf r) p.layer l ≠ .ok p.layer := by
  obtain ⟨n, hn⟩ := Option.isSome_iff_exists.mp hg
  have hf : p.fused = true := by rw [fused, hg, Bool.true_or]
  have hcount : p.count = n := by rw [count, hn]; rfl
  have hpos := (p.grouped n hn).1
  -- the load is one of group `g`
  obtain ⟨key, hkey, hl⟩ := he
  have hgroup : ∃ g < size * n, key = some ((g : ℕ) : ℤ) := by
    rw [keys, hn] at hkey
    obtain ⟨g, hlt, rfl⟩ := List.mem_map.mp hkey
    exact ⟨g, List.mem_range.mp hlt, rfl⟩
  obtain ⟨g, hlt, rfl⟩ := hgroup
  -- Group `g` is number `g % n` of rank `g / n`.
  have hkeys : ∀ (r : Fin size) i, some (g : ℤ) = p.key r i ↔ g = r * n + i := by
    intro r i
    rw [PackedLinear.key, firstShard, hn, Option.some.injEq]
    exact Nat.cast_inj
  simp only [load_ne_iff hf _ hkey hl, hcount, hkeys]
  refine ⟨⟨g / n, Nat.div_lt_of_lt_mul (Nat.mul_comm size n ▸ hlt)⟩,
    ⟨g % n, Nat.mod_lt g hpos, (Nat.div_add_mod' g n).symm⟩, ?_⟩
  -- no other rank has it
  rintro r ⟨i, hi, hgi⟩
  have hdiv : g / n = r := by
    rw [hgi, Nat.add_comm, Nat.add_mul_div_right i r hpos, Nat.div_eq_of_lt hi, Nat.zero_add]
  exact Fin.ext hdiv.symm

/-! ### The condition -/

/-- **When a partly loaded linear is not served**: exactly outside the gaps. -/
theorem neverPartlyServed_iff (p : PackedLinear T size) (rank : Fin size) (loads : List (Load V))
    (layer : Layer V Inner) (he : ∀ l ∈ loads, p.Expects l)
    (h : p.loadAll rank loads = .ok layer) :
    p.NeverPartlyServed rank loads layer ↔ ¬p.Gap rank loads layer := by
  -- a fused linear is served from its stash, the others from their parameters
  have hserved : (∀ layer', p.method.processWeights T layer = .ok layer' →
      List.Forall₂ (p.BuiltFrom rank loads) (p.localKeys rank) layer'.served) ↔
      ¬p.Gap rank loads layer := by
    cases hf : p.fused with
    | false => exact (filled_of_loadAll hf he h).served_iff hf
    | true => exact (kept_of_loadAll hf he h).served_iff hf (count_pos hf)
  rw [← hserved]
  refine ⟨fun hnever => hnever.served, fun hall => ?_⟩
  exact ⟨hall, loadAll_owned he h, fun hg l hl => existsUnique_keeps hg hl⟩

end PackedLinear

/-- With fewer modules than the input has groups, `apply` does not run group by group: each
module gets the whole input. -/
theorem forwardAll_short (T : Torch V Inner) {layer : Layer V Inner} {inners : List Inner}
    (hinners : layer.inners = some inners) (hne : inners ≠ []) {xh : Tensor V}
    (hx : xh.shape[1]? ≠ some inners.length) :
    forwardAll T layer xh = (inners.mapM fun h => T.forward h xh .float32) >>= T.cat := by
  obtain ⟨inner, rest, rfl⟩ := List.exists_cons_of_ne_nil hne
  have hbranch : ¬(layer.isBmm ∧ xh.dim = 3 ∧ xh.shape[1]? = some (inner :: rest).length) :=
    fun h => hx h.2.2
  rw [forwardAll, hinners, Option.getD_some]
  cases layer.inner <;> exact if_neg hbranch

/-! ### A grouped linear on two ranks -/

/-- A device whose tensors hold integers and whose modules show what they are made of. -/
def sampleTorch : Torch ℤ (LinearArgs ℤ) where
  cast _ _ v := v
  empty _ _ _ _ := 0
  linearEXL3 a := .ok a
  forward _ _ _ := .error (.torch "no kernel")
  stack _ _ := .error (.torch "no kernel")
  cat _ := .error (.torch "no kernel")
  add _ _ := .error (.torch "no kernel")

/-- Four groups over two ranks. -/
def samplePacked : PackedLinear sampleTorch 2 where
  method := ⟨"layers.0.attn.wo_a", 1, .mul1⟩
  args := ⟨16, [32], 16, 64, none, none⟩
  device := .cuda 0
  groups := some 2
  created := ((Exl3LinearMethod.mk "layers.0.attn.wo_a" 1 .mul1).createWeights sampleTorch (.cuda 0)
    ⟨16, [32], 16, 64, none, none⟩).toOption.get rfl
  create := rfl
  grouped n hn := by
    obtain rfl := Option.some.inj hn
    decide

/-- The packed tensors of one group, the marker under a digit string. -/
def sampleSlice (g : ℕ) : List (Load ℤ) :=
  [⟨.trellis, ⟨[1, 1, 16], .int16, .cpu, fun _ => g⟩, .int g, none⟩,
   ⟨.suh, ⟨[16], .float16, .cpu, fun _ => g⟩, .int g, none⟩,
   ⟨.svh, ⟨[16], .float16, .cpu, fun _ => g⟩, .int g, none⟩,
   ⟨.mul1, ⟨[], .int32, .cpu, fun _ => g⟩, .str [digitChar g], none⟩]

/-- A layer of the second rank after some loads. -/
def sampleLayer (loads : List (Load ℤ)) : Layer ℤ (LinearArgs ℤ) :=
  (samplePacked.loadAll 1 loads).toOption.getD samplePacked.layer

def sampleLoads : List (Load ℤ) := sampleSlice 3 ++ sampleSlice 0 ++ sampleSlice 2

/-- The tensors of group 3 never arrived; those of the second rank's other group have. -/
theorem not_neverPartlyServed :
    ¬∀ (V Inner : Type) (T : Torch V Inner) (size : ℕ) (p : PackedLinear T size)
        (rank : Fin size) (loads : List (Load V)) (layer : Layer V Inner),
      (∀ l ∈ loads, p.Expects l) → p.loadAll rank loads = .ok layer →
        p.NeverPartlyServed rank loads layer := by
  intro h
  have hserved := (h ℤ (LinearArgs ℤ) sampleTorch 2 samplePacked 1 (sampleSlice 0 ++ sampleSlice 2)
    (sampleLayer (sampleSlice 0 ++ sampleSlice 2)) (by decide) rfl).served _ rfl
  have hlength := hserved.length_eq
  revert hlength
  decide

/-- With all four groups loaded the second rank serves its two, in order. -/
theorem neverPartlyServed_sample :
    samplePacked.NeverPartlyServed 1 sampleLoads (sampleLayer sampleLoads) := by
  refine (PackedLinear.neverPartlyServed_iff samplePacked 1 sampleLoads (sampleLayer sampleLoads)
    (by decide) rfl).mpr fun hgap => ?_
  -- which gap could it be
  cases hgap with
  | nothingLoaded nothing =>
    cases nothing (some 3) (by decide) .trellis
  | tensorMissing single => cases single
  | trailingMissing n k groups pos lt complete missing =>
    obtain rfl := Option.some.inj groups
    obtain rfl : k = 1 := by omega
    cases missing 1 le_rfl (by decide) .trellis

end Dsv41Overlay.Linear
