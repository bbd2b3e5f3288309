import Dsv41Overlay.Lib.Decimal
import Mathlib.Data.List.AList
import Mathlib.Data.Int.Order.Basic

/-!
# Packed linears

`Exl3LinearMethod` keeps the packed tensors of a linear layer (`trellis`, `suh`,
`svh` and the marker `mul1`). `create_weights` registers a parameter for each,
`_load` receives the checkpoint's tensors one call at a time, in the order of the
files, and `process_weights_after_loading` builds the `LinearEXL3` modules the
forward pass runs.

A layer with one packed matrix keeps it in the parameters. One with several, a
merged linear or a grouped one with a slice for each group, keeps them in
`_exl3_fused_stash`, a dictionary from shard to suffix to tensor.
-/

namespace Dsv41Overlay.Linear

/-! ### Tensors -/

/-- Where a tensor lives. -/
inductive TensorDevice
  | cpu
  | cuda (index : ℕ)
deriving DecidableEq, Repr

/-- The element types this file names. -/
inductive DType
  | int16
  | int32
  | float16
  | float32
  | bfloat16
deriving DecidableEq, Repr

/-- A tensor: its entries by index. -/
structure Tensor (V : Type) where
  shape : List ℕ
  dtype : DType
  device : TensorDevice
  data : List ℕ → V

variable {V Inner : Type}

namespace Tensor

def numel (t : Tensor V) : ℕ := t.shape.prod

def dim (t : Tensor V) : ℕ := t.shape.length

/-- `narrow(dim, start, length)`. -/
def narrow (t : Tensor V) (dim start length : ℕ) : Tensor V :=
  { t with
    shape := t.shape.set dim length
    data := fun index => t.data (index.modify dim (· + start)) }

/-- `t[:, g, :]` for `dim = 1`. -/
def select (t : Tensor V) (dim g : ℕ) : Tensor V :=
  { t with
    shape := t.shape.eraseIdx dim
    data := fun index => t.data (index.insertIdx dim g) }

end Tensor

/-- The codebook of a checkpoint. -/
inductive Codebook
  | mul1
  | mcg
deriving DecidableEq, Repr

/-- What `LinearEXL3` is built from. -/
structure LinearArgs (V : Type) where
  inFeatures : ℕ
  outFeatures : ℕ
  trellis : Tensor V
  suh : Tensor V
  svh : Tensor V
  outDtype : DType
  transformersFix : Bool
  mcg : Option (Tensor V)
  mul1 : Option (Tensor V)

/-! ### Errors -/

/-- `EXL3_SUFFIXES`. -/
inductive Suffix
  | trellis
  | suh
  | svh
  | mcg
  | mul1
deriving DecidableEq, Repr

def Suffix.name : Suffix → String
  | trellis => "trellis"
  | suh => "suh"
  | svh => "svh"
  | mcg => "mcg"
  | mul1 => "mul1"

/-- What `create_weights`, `_load` and `process_weights_after_loading` raise. -/
inductive LinearError
  | py (e : PyError)
  | tiles (inPart outPart : ℕ) (pfx : String)
  | indivisible (dim size tp : ℕ)
  | reshape (shape : List ℕ)
  | mismatch (weightName : Option (List Char)) (dest loaded : List ℕ) (pfx : String) (k : ℕ)
      (suffix : Suffix)
  | missing (pfx : String) (shard : ℕ) (held : List Suffix)
  | attributeError
  | torch (msg : String)
deriving DecidableEq, Repr

/-- `tuple(shape)` in a message. -/
def pyTuple : List ℕ → String
  | [n] => "(" ++ toString n ++ ",)"
  | shape => "(" ++ ", ".intercalate (shape.map toString) ++ ")"

/-- `sorted(keys)` in a message. -/
def pyNames (held : List Suffix) : String :=
  let names := (held.map Suffix.name).mergeSort fun a b => decide (a ≤ b)
  "[" ++ ", ".intercalate (names.map fun s => "'" ++ s ++ "'") ++ "]"

/-- The text of an error that this file raises itself. -/
def LinearError.message : LinearError → String
  | tiles inPart outPart pfx =>
    "EXL3 trellis tiles are 16-wide; in_part=" ++ toString inPart ++ " out_part=" ++
      toString outPart ++ " prefix=" ++ pfx
  | indivisible dim size tp =>
    "EXL3 TP shard: dim " ++ toString dim ++ " size " ++ toString size ++
      " is not divisible by tp=" ++ toString tp
  | mismatch weightName dest loaded pfx k suffix =>
    "EXL3 linear load shape mismatch " ++ (weightName.elim "None" String.ofList) ++ ": dest " ++
      pyTuple dest ++ " != loaded " ++ pyTuple loaded ++ " (prefix=" ++ pfx ++ " guessed K=" ++
      toString k ++ " suffix=" ++ suffix.name ++ ")"
  | missing pfx shard held =>
    "EXL3 fused linear " ++ pfx ++ " missing packed shard " ++ toString shard ++ ": have " ++
      pyNames held
  | py (.valueError msg) | torch msg => msg
  | py _ | reshape _ | attributeError => ""

/-- What the layer takes from outside the file: conversions between element types,
what uninitialised memory holds, and the `LinearEXL3` class with the operations
`apply` combines its results by. -/
structure Torch (V Inner : Type) where
  cast : DType → DType → V → V
  empty : TensorDevice → DType → List ℕ → List ℕ → V
  linearEXL3 : LinearArgs V → Except LinearError Inner
  forward : Inner → Tensor V → DType → Except LinearError (Tensor V)
  stack : List (Tensor V) → ℕ → Except LinearError (Tensor V)
  cat : List (Tensor V) → Except LinearError (Tensor V)
  add : Tensor V → Tensor V → Except LinearError (Tensor V)

namespace Torch

variable (T : Torch V Inner)

/-- `t.to(dtype=dtype)`. -/
def toDtype (t : Tensor V) (dtype : DType) : Tensor V :=
  { t with dtype := dtype, data := fun index => T.cast t.dtype dtype (t.data index) }

/-- `torch.empty(shape, dtype=dtype, device=device)`. -/
def emptyTensor (shape : List ℕ) (dtype : DType) (device : TensorDevice) : Tensor V :=
  ⟨shape, dtype, device, T.empty device dtype shape⟩

/-- `h2d_copy`, between tensors of one shape; the pinned buffer on the way holds the
values already converted. -/
def h2dCopy (dest src : Tensor V) : Tensor V :=
  { dest with data := fun index => T.cast src.dtype dest.dtype (src.data index) }

/-- `h2d_alloc`. -/
def h2dAlloc (src : Tensor V) (device : TensorDevice) (dtype : DType) : Tensor V :=
  T.h2dCopy (T.emptyTensor src.shape dtype device) src

end Torch

/-- `t.reshape(())`. -/
def Tensor.scalar (t : Tensor V) : Except LinearError (Tensor V) :=
  if t.numel = 1 then .ok { t with shape := [], data := fun _ => t.data (t.shape.map fun _ => 0) }
  else .error (.reshape t.shape)

/-! ### Shards of a tensor-parallel group -/

/-- A rank of the tensor-parallel group: `_tp_rank_size()`. -/
structure Tp where
  rank : ℕ
  size : ℕ
  rank_lt : rank < size

/-- `_narrow_tp`. -/
def narrowTp (t : Tensor V) (dim : ℕ) (tp : Tp) : Except LinearError (Tensor V) :=
  if tp.size ≤ 1 then .ok t
  else
    match t.shape[dim]? with
    | none => .error (.py .indexError)
    | some size =>
      if size % tp.size ≠ 0 then .error (.indivisible dim size tp.size)
      else .ok (t.narrow dim (size / tp.size * tp.rank) (size / tp.size))

/-- `shard_exl3_col`. -/
def shardExl3Col (loaded : Tensor V) (suffix : Suffix) (tp : Tp) : Except LinearError (Tensor V) :=
  match suffix with
  | .trellis => narrowTp loaded 1 tp
  | .svh => narrowTp loaded 0 tp
  | .suh | .mcg | .mul1 => .ok loaded

/-- `shard_exl3_row`. -/
def shardExl3Row (loaded : Tensor V) (suffix : Suffix) (tp : Tp) : Except LinearError (Tensor V) :=
  match suffix with
  | .trellis | .suh => narrowTp loaded 0 tp
  | .svh | .mcg | .mul1 => .ok loaded

/-- How a linear is cut over the ranks: `_exl3_shard`. -/
inductive Shard
  | whole
  | col
  | row
deriving DecidableEq, Repr

/-! ### The layer -/

/-- The four parameters `create_weights` registers. `mcg` is another name for the last. -/
inductive Slot
  | trellis
  | suh
  | svh
  | mul1
deriving DecidableEq, Repr

def Slot.suffix : Slot → Suffix
  | trellis => .trellis
  | suh => .suh
  | svh => .svh
  | mul1 => .mul1

def Slot.dtype : Slot → DType
  | trellis => .int16
  | suh | svh => .float16
  | mul1 => .int32

/-- A parameter with the attributes `_load` reads off it. -/
structure Param (V : Type) where
  tensor : Tensor V
  suffix : Option Suffix
  shard : Shard

/-- `_exl3_fused_stash`. -/
abbrev Stash (V : Type) := AList fun _ : ℤ => AList fun _ : Suffix => Tensor V

/-- The tensor a stash holds for a shard. -/
def Stash.entry (stash : Stash V) (shard : ℤ) (suffix : Suffix) : Option (Tensor V) :=
  (stash.lookup shard).bind (AList.lookup suffix)

/-- The suffixes a stash holds for a shard. -/
def Stash.held (stash : Stash V) (shard : ℤ) : List Suffix :=
  match stash.lookup shard with
  | none => []
  | some tensors => tensors.keys

/-- `stash.setdefault(shard, {})[suffix] = t`. -/
def Stash.put (stash : Stash V) (shard : ℤ) (suffix : Suffix) (t : Tensor V) : Stash V :=
  stash.insert shard (((stash.lookup shard).getD ∅).insert suffix t)

/-- The attributes of a layer that the linear method uses. -/
structure Layer (V Inner : Type) where
  params : Slot → Param V
  outputPartitionSizes : List ℕ
  fusedStash : Stash V
  k : ℕ
  isBmm : Bool
  bmmBatchSize : Option ℤ
  inners : Option (List Inner)
  inner : Option Inner

/-- The linear method of one layer. -/
structure Exl3LinearMethod where
  pfx : String
  k : ℕ
  codebook : Codebook

/-- The arguments of `create_weights` it uses. -/
structure CreateArgs where
  inputSizePerPartition : ℕ
  outputPartitionSizes : List ℕ
  inputSize : ℕ
  outputSize : ℕ
  inputDim : Option ℤ
  outputDim : Option ℤ

/-- The `shard` that `create_weights` settles on. -/
def CreateArgs.shard (a : CreateArgs) : Shard :=
  if a.outputDim.isSome then .col
  else if a.inputDim.isSome then .row
  else if a.inputSizePerPartition < a.inputSize then .row
  else if a.outputPartitionSizes.sum < a.outputSize then .col
  else .whole

/-- The shape of a parameter as created. -/
def Exl3LinearMethod.shape (m : Exl3LinearMethod) (a : CreateArgs) : Slot → List ℕ
  | .trellis => [a.inputSizePerPartition / 16, a.outputPartitionSizes.sum / 16, m.k * 16]
  | .suh => [a.inputSizePerPartition]
  | .svh => [a.outputPartitionSizes.sum]
  | .mul1 => []

/-- `create_weights`, on the current device. -/
def Exl3LinearMethod.createWeights (m : Exl3LinearMethod) (T : Torch V Inner)
    (device : TensorDevice) (a : CreateArgs) : Except LinearError (Layer V Inner) :=
  if a.inputSizePerPartition % 16 ≠ 0 ∨ a.outputPartitionSizes.sum % 16 ≠ 0 then
    .error (.tiles a.inputSizePerPartition a.outputPartitionSizes.sum m.pfx)
  else .ok
    { params := fun slot =>
        { tensor := T.emptyTensor (m.shape a slot) slot.dtype device
          suffix := some slot.suffix
          shard := a.shard }
      outputPartitionSizes := a.outputPartitionSizes
      fusedStash := ∅
      k := m.k
      isBmm := false
      bmmBatchSize := none
      inners := none
      inner := none }

/-! ### Loading one tensor -/

/-- `loaded_shard_id`. -/
inductive ShardArg
  | none
  | int (i : ℤ)
  | str (s : List Char)
deriving DecidableEq, Repr

/-- The digits that are no decimal digits: superscripts, subscripts, circled digits and
the like, as ranges of code points. -/
def otherDigits : List (ℕ × ℕ) :=
  [(0xb2, 0xb3), (0xb9, 0xb9), (0x1369, 0x1371), (0x19da, 0x19da), (0x2070, 0x2070),
   (0x2074, 0x2079), (0x2080, 0x2089), (0x2460, 0x2468), (0x2474, 0x247c), (0x2488, 0x2490),
   (0x24ea, 0x24ea), (0x24f5, 0x24fd), (0x24ff, 0x24ff), (0x2776, 0x277e), (0x2780, 0x2788),
   (0x278a, 0x2792), (0x10a40, 0x10a43), (0x10e60, 0x10e68), (0x11052, 0x1105a),
   (0x1f100, 0x1f10a)]

/-- `s.isdigit()`. It also accepts digits that `int` refuses. -/
def pyIsDigit (s : List Char) : Bool :=
  !s.isEmpty && s.all fun c =>
    isDecimal c || otherDigits.any fun r => decide (r.1 ≤ c.toNat ∧ c.toNat ≤ r.2)

/-- The shard id a call names, if any. -/
def ShardArg.shardId : ShardArg → Except PyError (Option ℤ)
  | none => .ok Option.none
  | int i => .ok (some i)
  | str s => if pyIsDigit s then (pyInt s).map fun i => some (i : ℤ) else .ok Option.none

/-- `weight_name` after a string that is no shard id has replaced it. -/
def ShardArg.weightName (arg : ShardArg) (weightName : Option (List Char)) : Option (List Char) :=
  match arg with
  | str s => if pyIsDigit s then weightName else some s
  | none | int _ => weightName

/-- `_suffix_from_mapped_name`. -/
def suffixFromMappedName (weightName : List Char) : Option Suffix :=
  let tail := (weightName.reverse.takeWhile (· ≠ '.')).reverse
  [Suffix.trellis, .suh, .svh, .mcg, .mul1].find? fun s =>
    decide (tail = s.name.toList) || ('_' :: s.name.toList).isSuffixOf tail

/-- The suffix of a parameter, by its attribute, its weight name or its rank. -/
def Param.name (p : Param V) (weightName : Option (List Char)) : Suffix :=
  match p.suffix with
  | some s => s
  | none =>
    match suffixFromMappedName (weightName.getD []) with
    | some s => s
    | none => if p.tensor.dim = 1 then .suh else if p.tensor.dim = 0 then .mul1 else .trellis

/-- Which shard of this rank a call fills and whether it carries this rank's slice
already (`skip_tp`); `none` for a slice of a group that another rank owns. -/
def localShard (tp : Tp) (shard : Shard) (nLocal : Option ℤ) (shardId : Option ℤ) :
    Option (Option ℤ × Bool) :=
  match shardId, nLocal with
  | some i, some n =>
    if shard = .col ∧ 0 < n then
      if 1 < tp.size then
        if i < tp.rank * n ∨ tp.rank * n + n ≤ i then none else some (some (i - tp.rank * n), true)
      else some (some i, true)
    else some (some i, false)
  | _, _ => some (shardId, false)

/-- The loaded tensor cut down to this rank. -/
def sharded (tp : Tp) (shard : Shard) (skipTp : Bool) (name : Suffix) (loaded : Tensor V) :
    Except LinearError (Tensor V) :=
  let packSuffix := if name = .mul1 then .mcg else name
  if skipTp then .ok loaded
  else if 1 < tp.size ∧ shard = .col then shardExl3Col loaded packSuffix tp
  else if 1 < tp.size ∧ shard = .row then shardExl3Row loaded packSuffix tp
  else .ok loaded

/-- The loaded tensor as it is stored: this rank's part of it, the marker as a scalar. -/
def arrive (T : Torch V Inner) (tp : Tp) (shard : Shard) (skipTp : Bool) (name : Suffix)
    (loaded : Tensor V) : Except LinearError (Tensor V) := do
  let loaded ← sharded tp shard skipTp name loaded
  if name = .mul1 then return T.toDtype (← loaded.scalar) .int32 else return loaded

namespace Layer

variable (layer : Layer V Inner)

/-- A call goes to the stash. -/
def fused (shardId : Option ℤ) : Bool :=
  shardId.isSome || decide (1 < layer.outputPartitionSizes.length)

/-- `param.data = t`, or an in-place write of `t`'s values. -/
def write (slot : Slot) (t : Tensor V) : Layer V Inner :=
  { layer with
    params := Function.update layer.params slot { layer.params slot with tensor := t } }

/-- Keep a tensor in the stash and drop the storage of the parameter it was for. -/
def keep (T : Torch V Inner) (slot : Slot) (shard : ℤ) (name : Suffix) (t : Tensor V) :
    Layer V Inner :=
  let param := (layer.params slot).tensor
  let kept := { layer with fusedStash := layer.fusedStash.put shard name t }
  if 0 < param.dim ∧ 0 < param.numel then
    kept.write slot (T.emptyTensor [0] param.dtype param.device)
  else kept

end Layer

/-- The device copy of a tensor for the stash. -/
def onDevice (T : Torch V Inner) (param loaded : Tensor V) : Tensor V :=
  if loaded.device ≠ param.device then T.h2dAlloc loaded param.device param.dtype else loaded

/-- Fill a parameter of a layer with a single packed matrix. -/
def Exl3LinearMethod.fill (m : Exl3LinearMethod) (T : Torch V Inner) (layer : Layer V Inner)
    (slot : Slot) (name : Suffix) (weightName : Option (List Char)) (loaded : Tensor V) :
    Except LinearError (Layer V Inner) :=
  let param := (layer.params slot).tensor
  if param.dim = 0 then return layer.write slot (T.h2dCopy param (← loaded.scalar))
  else if name = .trellis ∧ param.shape ≠ loaded.shape then
    return layer.write slot (T.h2dAlloc loaded param.device param.dtype)
  else if param.shape ≠ loaded.shape then
    .error (.mismatch weightName param.shape loaded.shape m.pfx m.k name)
  else return layer.write slot (T.h2dCopy param loaded)

/-- Store an arrived tensor, in the stash or in the parameter. -/
def Exl3LinearMethod.store (m : Exl3LinearMethod) (T : Torch V Inner) (layer : Layer V Inner)
    (slot : Slot) (name : Suffix) (weightName : Option (List Char)) (shardId : Option ℤ)
    (loaded : Tensor V) : Except LinearError (Layer V Inner) :=
  if layer.fused shardId then
    .ok (layer.keep T slot (shardId.getD 0) name (onDevice T (layer.params slot).tensor loaded))
  else m.fill T layer slot name weightName loaded

/-- One call of the loader: the parameter it is made on, the tensor, and the rest of its
arguments. -/
structure Load (V : Type) where
  slot : Slot
  tensor : Tensor V
  shardArg : ShardArg
  weightName : Option (List Char)

/-- `_load`. -/
def Exl3LinearMethod.load (m : Exl3LinearMethod) (T : Torch V Inner) (tp : Tp)
    (layer : Layer V Inner) (l : Load V) : Except LinearError (Layer V Inner) := do
  let shardId ← l.shardArg.shardId.mapError .py
  let weightName := l.shardArg.weightName l.weightName
  let param := layer.params l.slot
  let name := param.name weightName
  match localShard tp param.shard layer.bmmBatchSize shardId with
  | none => return layer
  | some (shardId, skipTp) =>
    let loaded ← arrive T tp param.shard skipTp name l.tensor
    m.store T layer l.slot name weightName shardId loaded

/-! ### Building the modules -/

/-- `make_linear_exl3`. A missing marker has no `contiguous`. -/
def Exl3LinearMethod.makeLinear (m : Exl3LinearMethod) (T : Torch V Inner)
    (trellis suh svh : Tensor V) (marker : Option (Tensor V)) : Except LinearError Inner :=
  match marker with
  | none => .error .attributeError
  | some packed =>
    T.linearEXL3
      { inFeatures := suh.numel
        outFeatures := svh.numel
        trellis
        suh
        svh
        outDtype := .float16
        transformersFix := true
        mcg := if m.codebook = .mcg then some packed else none
        mul1 := if m.codebook = .mcg then none else some packed }

/-- One module from the stash. -/
def Exl3LinearMethod.innerOf (m : Exl3LinearMethod) (T : Torch V Inner) (stash : Stash V)
    (i : ℕ) : Except LinearError Inner :=
  match stash.entry i .trellis, stash.entry i .suh, stash.entry i .svh with
  | some trellis, some suh, some svh =>
    m.makeLinear T trellis suh svh ((stash.entry i .mul1).or (stash.entry i .mcg))
  | _, _, _ => .error (.missing m.pfx i (stash.held i))

/-- The K of a packed matrix: `int(trellis.shape[-1]) // 16`. -/
def kOf (trellis : Tensor V) : Except LinearError ℕ :=
  match trellis.shape.getLast? with
  | none => .error (.py .indexError)
  | some words => .ok (words / 16)

namespace Layer

variable (layer : Layer V Inner)

/-- How many modules a stash is read for. -/
def shards : ℕ :=
  if 1 < layer.outputPartitionSizes.length then layer.outputPartitionSizes.length
  else ((layer.fusedStash.keys.max?.getD (-1)) + 1).toNat

/-- The modules a forward pass runs. -/
def served : List Inner := layer.inners.getD layer.inner.toList

end Layer

/-- `process_weights_after_loading`. -/
def Exl3LinearMethod.processWeights (m : Exl3LinearMethod) (T : Torch V Inner)
    (layer : Layer V Inner) : Except LinearError (Layer V Inner) := do
  if layer.fusedStash.keys ≠ [] then
    let inners ← (List.range layer.shards).mapM (m.innerOf T layer.fusedStash)
    match layer.fusedStash.entry 0 .trellis with
    | none => throw (.py .keyError)
    | some trellis =>
      return { layer with inners := some inners, inner := none, k := ← kOf trellis }
  else
    let trellis := (layer.params .trellis).tensor
    let inner ← m.makeLinear T trellis (layer.params .suh).tensor (layer.params .svh).tensor
      (some (layer.params .mul1).tensor)
    return { layer with inner := some inner, k := ← kOf trellis }

/-- The forward pass over the modules: one group of the input for each module of a
grouped linear, the whole input for each part of a merged one. -/
def forwardAll (T : Torch V Inner) (layer : Layer V Inner) (xh : Tensor V) :
    Except LinearError (Tensor V) :=
  match layer.inners.getD [], layer.inner with
  | [], none => .error .attributeError
  | [], some inner => T.forward inner xh .float32
  | inners, _ =>
    if layer.isBmm ∧ xh.dim = 3 ∧ xh.shape[1]? = some inners.length then do
      let groups ← inners.zipIdx.mapM fun h => T.forward h.1 (xh.select 1 h.2) .float32
      T.stack groups 1
    else do
      let parts ← inners.mapM fun h => T.forward h xh .float32
      T.cat parts

/-- `apply`. -/
def Exl3LinearMethod.apply (m : Exl3LinearMethod) (T : Torch V Inner) (layer : Layer V Inner)
    (x : Tensor V) (bias : Option (Tensor V)) : Except LinearError (Layer V Inner × Tensor V) := do
  let layer ←
    if layer.inner.isNone && (layer.inners.getD []).isEmpty then m.processWeights T layer
    else pure layer
  let out ← forwardAll T layer (T.toDtype x .float16)
  let out := T.toDtype out x.dtype
  match bias with
  | none => return (layer, out)
  | some bias => return (layer, ← T.add out bias)

end Dsv41Overlay.Linear
