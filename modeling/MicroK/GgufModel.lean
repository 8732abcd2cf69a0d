import MicroK.ByteImage
import MicroK.MachineWords

/-!
# The GGUF reader: values, metadata and the probe

A model file has a header, metadata entries, tensor descriptors and the tensors' data. Offsets into
the file are unsigned 32-bit numbers, the lengths and counts in the file have 64 bits. A function
that returns 0 in the source rejects here; what it writes through its out parameters is its value.
Messages to the log are left out.
-/

namespace MicroK.Gguf

open Outcome

def u64 (n : ℕ) : ℕ := n % 2 ^ 64

inductive MetadataType where
  | uint8 | int8 | uint16 | int16 | uint32 | int32 | float32 | bool | string | array
  | uint64 | int64 | float64
  deriving DecidableEq

def MetadataType.code : MetadataType → ℕ
  | uint8 => 0
  | int8 => 1
  | uint16 => 2
  | int16 => 3
  | uint32 => 4
  | int32 => 5
  | float32 => 6
  | bool => 7
  | string => 8
  | array => 9
  | uint64 => 10
  | int64 => 11
  | float64 => 12

inductive GgmlType where
  | f32 | f16 | q4_0 | q4_1 | q6_k | i8 | i16 | i32
  deriving DecidableEq

def GgmlType.code : GgmlType → ℕ
  | f32 => 0
  | f16 => 1
  | q4_0 => 2
  | q4_1 => 3
  | q6_k => 14
  | i8 => 16
  | i16 => 17
  | i32 => 18

def rangeOk (size offset need : ℕ) : Bool :=
  if offset > size then false else need ≤ size - offset

def cText (l : List UInt8) : List UInt8 := l.takeWhile (· ≠ 0)

def keyBytes (s : String) : List UInt8 := s.toUTF8.toList

def scalarSize : ℕ → Option ℕ
  | 0 | 1 | 7 => some 1
  | 2 | 3 => some 2
  | 4 | 5 | 6 => some 4
  | 10 | 11 | 12 => some 8
  | _ => none

/-- The loop over the elements of an array, `skip` bytes into the value. -/
def skipElements (element : ℕ → Outcome ℕ) (size offset : ℕ) : ℕ → ℕ → Outcome ℕ
  | 0, skip => .ok skip
  | n + 1, skip => do
    let inner ← element (u32 (offset + skip))
    if rangeOk size (u32 (offset + skip)) inner = false then reject
    else skipElements element size offset n (u32 (skip + inner))

/-- `gguf_skip_value`, with fuel for the nesting of arrays. -/
def skipValue (f : Image) : ℕ → ℕ → ℕ → Outcome ℕ
  | 0, _, _ => endless
  | fuel + 1, offset, type =>
    match scalarSize type with
    | some size => .ok size
    | none =>
      if type = MetadataType.string.code then
        if rangeOk f.size offset 8 = false then reject
        else do
          let len ← f.readLe offset 8
          if len > 0xFFFFFFFF then reject
          else if rangeOk f.size (u32 (offset + 8)) len = false then reject
          else .ok (u32 (8 + len))
      else if type = MetadataType.array.code then
        if rangeOk f.size offset 12 = false then reject
        else do
          let subType ← f.readLe offset 4
          let count ← f.readLe (offset + 4) 8
          if count > 262144 then reject
          else skipElements (fun o => skipValue f fuel o subType) f.size offset count 12
      else reject

variable (f : Image)

/-- A name or key is preceded by its length, which is at most 255. -/
def nameLength (ptr : ℕ) : Outcome ℕ :=
  if rangeOk f.size ptr 8 = false then reject
  else do
    let len ← f.readLe ptr 8
    if len > 255 ∨ rangeOk f.size (u32 (ptr + 8)) len = false then reject else .ok len

def findMetadataEntry (f : Image) (key : List UInt8) : ℕ → ℕ → Outcome (ℕ × ℕ)
  | 0, _ => reject
  | n + 1, ptr => do
    let keyLen ← nameLength f ptr
    let ptr := u32 (ptr + 8)
    let currentKey ← f.readBytes ptr (min keyLen 63)
    let ptr := u32 (ptr + keyLen)
    if rangeOk f.size ptr 4 = false then reject
    else do
      let valType ← f.readLe ptr 4
      let ptr := u32 (ptr + 4)
      if cText currentKey = key then .ok (valType, ptr)
      else do
        let valueSkip ← skipValue f (f.size + 1) ptr valType
        findMetadataEntry f key n (u32 (ptr + valueSkip))

structure Arch where
  name : List UInt8
  nVocab : ℕ
  nEmbd : ℕ
  nLayer : ℕ
  nHead : ℕ
  nKvHead : ℕ
  nCtx : ℕ
  /-- The two floats by their bits. -/
  rmsNormEps : ℕ
  ropeFreqBase : ℕ
  deriving DecidableEq

structure Info where
  version : ℕ
  tensorCount : ℕ
  metadataCount : ℕ
  metadataOffset : ℕ
  tensorInfoOffset : ℕ
  dataOffset : ℕ
  arch : Arch
  deriving DecidableEq

variable (info : Info)

def getMetadataValueFromInfo (key : List UInt8)
    (expectedType : MetadataType) : Outcome (List UInt8) := do
  let entry ← findMetadataEntry f key info.metadataCount info.metadataOffset
  if entry.1 ≠ expectedType.code then reject
  else
    match expectedType with
    | .uint32 | .int32 | .float32 =>
      if rangeOk f.size entry.2 4 = false then reject else f.readBytes entry.2 4
    | .uint64 | .int64 =>
      if rangeOk f.size entry.2 8 = false then reject else f.readBytes entry.2 8
    | .string =>
      if rangeOk f.size entry.2 8 = false then reject
      else do
        let len ← f.readLe entry.2 8
        if len > 255 ∨ rangeOk f.size (u32 (entry.2 + 8)) len = false then reject
        else do
          let text ← f.readBytes (entry.2 + 8) (min len 63)
          .ok (text ++ [0])
    | _ => reject

def getMetadataArrayFromInfo (key : List UInt8) : Outcome (ℕ × ℕ) := do
  let entry ← findMetadataEntry f key info.metadataCount info.metadataOffset
  if entry.1 ≠ MetadataType.array.code then reject
  else if rangeOk f.size entry.2 12 = false then reject
  else do
    let count ← f.readLe (entry.2 + 4) 8
    .ok (u32 count, entry.2 + 12)

def ggufMagic : ℕ := 0x46554747

def headerSize : ℕ := 24

def walkMetadata (f : Image) : ℕ → ℕ → Outcome ℕ
  | 0, ptr => .ok ptr
  | n + 1, ptr => do
    let keyLen ← nameLength f ptr
    let ptr := u32 (u32 (ptr + 8) + keyLen)
    if rangeOk f.size ptr 4 = false then reject
    else do
      let valType ← f.readLe ptr 4
      let ptr := u32 (ptr + 4)
      let valueSkip ← skipValue f (f.size + 1) ptr valType
      if rangeOk f.size ptr valueSkip = false then reject
      else walkMetadata f n (u32 (ptr + valueSkip))

def walkTensors (f : Image) : ℕ → ℕ → Outcome ℕ
  | 0, ptr => .ok ptr
  | n + 1, ptr => do
    let nameLen ← nameLength f ptr
    let ptr := u32 (u32 (ptr + 8) + nameLen)
    if rangeOk f.size ptr 4 = false then reject
    else do
      let ndims ← f.readLe ptr 4
      if ndims = 0 ∨ ndims > 4 then reject
      else
        let ptr := u32 (ptr + 4)
        if rangeOk f.size ptr (ndims * 8) = false then reject
        else
          let ptr := u32 (ptr + ndims * 8)
          if rangeOk f.size ptr 12 = false then reject
          else walkTensors f n (u32 (ptr + 12))

/-- A 32-bit value of the architecture, which may be stored with 64 bits, or 0. -/
def archValue (key : String) : Outcome ℕ := do
  match ← attempt (getMetadataValueFromInfo f info (keyBytes key) .uint32) with
  | some value => .ok (leValue value)
  | none =>
    match ← attempt (getMetadataValueFromInfo f info (keyBytes key) .uint64) with
    | some value => .ok (u32 (leValue value))
    | none => .ok 0

def archVocab : Outcome ℕ := do
  match ← attempt (getMetadataValueFromInfo f info (keyBytes "llama.vocab_size") .uint32) with
  | some value => .ok (leValue value)
  | none =>
    match ← attempt (getMetadataValueFromInfo f info (keyBytes "llama.vocab_size") .uint64) with
    | some value => .ok (u32 (leValue value))
    | none =>
      match ← attempt (getMetadataArrayFromInfo f info (keyBytes "tokenizer.ggml.tokens")) with
      | some tokens => .ok tokens.1
      | none => .ok 0

/-- A float of the architecture by its bits, with a default. -/
def archFloat (key : String) (default : ℕ) : Outcome ℕ := do
  match ← attempt (getMetadataValueFromInfo f info (keyBytes key) .float32) with
  | some value => .ok (leValue value)
  | none => .ok default

def defaultRopeFreqBase : ℕ := 0x461C4000

def readArch : Outcome Arch := do
  let name ← attempt (getMetadataValueFromInfo f info (keyBytes "general.name") .string)
  let nLayer ← archValue f info "llama.block_count"
  let nEmbd ← archValue f info "llama.embedding_length"
  let nHead ← archValue f info "llama.attention.head_count"
  let nKvHead ← archValue f info "llama.attention.head_count_kv"
  let nCtx ← archValue f info "llama.context_length"
  let nVocab ← archVocab f info
  let rmsNormEps ← archFloat f info "llama.attention.layer_norm_rms_epsilon" 0
  let ropeFreqBase ← archFloat f info "llama.rope.freq_base" defaultRopeFreqBase
  .ok ⟨cText (name.getD []), nVocab, nEmbd, nLayer, nHead, nKvHead, nCtx, rmsNormEps, ropeFreqBase⟩

/-- The end of the tensor descriptors rounded up to a multiple of 32. -/
def alignData (ptr : ℕ) : ℕ := u32 (ptr + 31) &&& 0xFFFFFFE0

def probeFile : Outcome Info :=
  if f.size < headerSize then reject
  else do
    let magic ← f.readLe 0 4
    if magic ≠ ggufMagic then reject
    else do
      let metadataCount ← f.readLe 16 8
      let tensorCount ← f.readLe 8 8
      if metadataCount > 1000 ∨ tensorCount > 1000 then reject
      else do
        let version ← f.readLe 4 4
        if version = 0 ∨ version > 3 then reject
        else do
          let tensorInfoOffset ← walkMetadata f metadataCount headerSize
          let ptr ← walkTensors f tensorCount tensorInfoOffset
          if alignData ptr > f.size then reject
          else do
            let computed : Info :=
              ⟨version, tensorCount, metadataCount, headerSize, tensorInfoOffset, alignData ptr,
                ⟨[], 0, 0, 0, 0, 0, 0, 0, 0⟩⟩
            let arch ← readArch f computed
            .ok { computed with arch := arch }

structure ProbeCache where
  start : ℕ
  size : ℕ
  info : Info

def ProbeCache.hit (cache : Option ProbeCache) (start size : ℕ) : Option Info :=
  match cache with
  | some c => if c.start = start ∧ c.size = size then some c.info else none
  | none => none

def probe (cache : Option ProbeCache) (start : ℕ) (f : Image) : Outcome Info :=
  match ProbeCache.hit cache start f.size with
  | some info => .ok info
  | none => probeFile f

def getMetadataValue (cache : Option ProbeCache) (start : ℕ) (f : Image) (key : List UInt8)
    (expectedType : MetadataType) : Outcome (List UInt8) := do
  let info ← probe cache start f
  getMetadataValueFromInfo f info key expectedType

def getMetadataArray (cache : Option ProbeCache) (start : ℕ) (f : Image) (key : List UInt8) :
    Outcome (ℕ × ℕ) := do
  let info ← probe cache start f
  getMetadataArrayFromInfo f info key

structure Descriptor where
  name : List UInt8
  dims : List ℕ
  type : ℕ
  offset : ℕ
  next : ℕ
  deriving DecidableEq

def readDims (f : Image) : ℕ → ℕ → Outcome (List ℕ)
  | 0, _ => .ok []
  | n + 1, ptr =>
    if rangeOk f.size ptr 8 = false then reject
    else do
      let dim ← f.readLe ptr 8
      let dims ← readDims f n (u32 (ptr + 8))
      .ok (dim :: dims)

def readDescriptor (ptr : ℕ) : Outcome Descriptor := do
  let nameLen ← nameLength f ptr
  let ptr := u32 (ptr + 8)
  let name ← f.readBytes ptr (min nameLen 63)
  let ptr := u32 (ptr + nameLen)
  if rangeOk f.size ptr 4 = false then reject
  else do
    let ndims ← f.readLe ptr 4
    if ndims = 0 ∨ ndims > 4 then reject
    else do
      let ptr := u32 (ptr + 4)
      let dims ← readDims f ndims ptr
      let ptr := u32 (ptr + 8 * ndims)
      if rangeOk f.size ptr 12 = false then reject
      else do
        let type ← f.readLe ptr 4
        let offset ← f.readLe (u32 (ptr + 4)) 8
        .ok ⟨cText name, dims, type, offset, u32 (ptr + 12)⟩

/-- The loop of `gguf_get_tensor` up to the first descriptor of the name. `abort i` says whether the
user has asked to stop by round `i`. -/
def findDescriptor (f : Image) (name : List UInt8) (abort : ℕ → Bool) :
    ℕ → ℕ → ℕ → Outcome Descriptor
  | 0, _, _ => reject
  | n + 1, i, ptr =>
    if abort i then reject
    else do
      let d ← readDescriptor f ptr
      if d.name = name then .ok d else findDescriptor f name abort n (i + 1) d.next

def tensorByteSize (type : ℕ) (dims : List ℕ) : Option ℕ :=
  let rows := dims.tail.foldl (fun rows dim => u64 (rows * dim)) 1
  let dim0 := dims.headD 0
  if type = GgmlType.f32.code then some (u64 (u64 (rows * dim0) * 4))
  else if type = GgmlType.f16.code then some (u64 (u64 (rows * dim0) * 2))
  else if type = GgmlType.q4_0.code then
    if dim0 = 0 ∨ dim0 % 32 ≠ 0 then none else some (u64 (u64 (rows * (dim0 / 32)) * 18))
  else if type = GgmlType.q6_k.code then
    if dim0 = 0 ∨ dim0 % 256 ≠ 0 then none else some (u64 (u64 (rows * (dim0 / 256)) * 210))
  else none

/-- The result of `gguf_get_tensor`; the array of four dimensions is given by those in use. -/
structure Tensor where
  name : List UInt8
  type : ℕ
  dims : List ℕ
  offset : ℕ
  deriving DecidableEq

def checkDescriptor (d : Descriptor) : Outcome Tensor :=
  let dims := d.dims.map u32
  let dataStart := u64 (info.dataOffset + d.offset)
  if dataStart > f.size then reject
  else
    match tensorByteSize d.type dims with
    | some byteSize =>
      if byteSize > f.size - dataStart then reject else .ok ⟨d.name, d.type, dims, u32 d.offset⟩
    | none => .ok ⟨d.name, d.type, dims, u32 d.offset⟩

def getTensor (cache : Option ProbeCache) (start : ℕ) (f : Image) (name : List UInt8)
    (abort : ℕ → Bool) : Outcome Tensor := do
  let info ← probe cache start f
  let d ← findDescriptor f name abort info.tensorCount 0 info.tensorInfoOffset
  checkDescriptor f info d

structure Request where
  offset : ℕ
  len : ℕ
  deriving DecidableEq

def Request.Inside (r : Request) (f : Image) (info : Info) : Prop :=
  info.dataOffset + r.offset + r.len ≤ f.size

instance (r : Request) (f : Image) (info : Info) : Decidable (r.Inside f info) :=
  inferInstanceAs (Decidable (_ ≤ _))

/-- One round of the loop of `tensor_create` over the dimensions. -/
def createStep (count : Option ℕ) (dim : ℕ) : Option ℕ :=
  count.bind fun c => if 0 < dim ∧ c > 0xFFFFFFFF / dim then none else some (u32 (c * dim))

def createCount (dims : List ℕ) : Option ℕ :=
  (dims.foldl createStep (some 1)).filter fun count => count ≠ 0

def loadBytes (type count : ℕ) : Option ℕ :=
  if type = GgmlType.f32.code then some (u32 (count * 4))
  else if type = GgmlType.f16.code then some (u32 (count * 2))
  else if type = GgmlType.q4_0.code then some (u32 (count / 32 * 18))
  else if type = GgmlType.q6_k.code then some (u32 (count / 256 * 210))
  else none

/-- A size that rounds up to zero is refused even where there is memory. -/
def kmallocOk (heap : Bool) (size : ℕ) : Bool := heap && 4 ≤ u32 (size + 3)

/-- `tensor_load_gguf` up to its read. `heap i` says whether the `i`-th allocation finds memory. -/
def loadRequest (heap : ℕ → Bool) (cache : Option ProbeCache) (start : ℕ) (f : Image)
    (name : List UInt8) (abort : ℕ → Bool) : Outcome Request := do
  let t ← getTensor cache start f name abort
  if heap 0 then
    match createCount t.dims with
    | none => reject
    | some count =>
      if kmallocOk (heap 1) (u32 (count * 4)) then
        match loadBytes t.type count with
        | none => reject
        | some len => if kmallocOk (heap 2) len then .ok ⟨t.offset, len⟩ else reject
      else reject
  else reject

def rowBytes (type width : ℕ) : Option ℕ :=
  if type = GgmlType.f32.code then some (u32 (width * 4))
  else if type = GgmlType.f16.code then some (u32 (width * 2))
  else if type = GgmlType.q4_0.code then
    if width % 32 ≠ 0 then none else some (u32 (width / 32 * 18))
  else if type = GgmlType.q6_k.code then
    if width % 256 ≠ 0 then none else some (u32 (width / 256 * 210))
  else none

variable (scratch : Bool)

/-- `tensor_read_gguf_row_into` up to its read. `scratch` says whether the row buffer could be made
large enough. -/
def rowRequest (cache : Option ProbeCache) (start : ℕ) (f : Image)
    (name : List UInt8) (abort : ℕ → Bool) (rowIndex outCount : ℕ) : Outcome Request := do
  let t ← getTensor cache start f name abort
  let _ ← probe cache start f
  match t.dims with
  | [width, rows] =>
    if rowIndex ≥ rows then reject
    else if outCount < width then reject
    else
      match rowBytes t.type width with
      | none => reject
      | some len =>
        if scratch then .ok ⟨u32 (t.offset + u32 (rowIndex * len)), len⟩ else reject
  | _ => reject

/-- `llm_find_gguf_tensor_alias`, where `aborts i` is the user's request during the `i`-th
lookup. -/
def findTensorAlias (cache : Option ProbeCache) (start : ℕ) (f : Image) (aborts : ℕ → ℕ → Bool) :
    List String → ℕ → Outcome (List UInt8)
  | [], _ => reject
  | name :: names, i => do
    match ← attempt (getTensor cache start f (keyBytes name) (aborts i)) with
    | some _ => .ok (keyBytes name)
    | none => findTensorAlias cache start f aborts names (i + 1)

def aliasTokenEmbd : List String := ["token_embd.weight", "tok_embeddings.weight"]

def aliasOutputNorm : List String := ["output_norm.weight", "norm.weight"]

def aliasOutput : List String := ["output.weight", "lm_head.weight", "token_embd.weight"]

/-- `llm_output_logit_for_token` up to its read. The width of the row is `n_embd`, and the row is
the token id. -/
def logitRequest (cache : Option ProbeCache) (start : ℕ) (f : Image)
    (aborts : ℕ → ℕ → Bool) (abort : ℕ → Bool) (t : Tensor) (nEmbd v : ℕ) : Outcome Request :=
  if t.type = GgmlType.q4_0.code then
    let len := u32 (nEmbd / 32 * 18)
    if scratch then .ok ⟨u32 (t.offset + u32 (v * len)), len⟩ else reject
  else if t.type = GgmlType.q6_k.code then
    let len := u32 (nEmbd / 256 * 210)
    if scratch then .ok ⟨u32 (t.offset + u32 (v * len)), len⟩ else reject
  else do
    let name ← findTensorAlias cache start f aborts aliasOutput 0
    rowRequest scratch cache start f name abort v nEmbd

def eosTokenId (cache : Option ProbeCache) (start : ℕ) (f : Image) : Outcome ℕ := do
  match ← attempt
    (getMetadataValue cache start f (keyBytes "tokenizer.ggml.eos_token_id") .uint32) with
  | some value => .ok (leValue value)
  | none => .ok 2

/-- The use of `llm_output_logit_for_token` in `llm_try_gguf_inference`: the output tensor is found
by its aliases, and the logit of the end-of-sequence token is asked for. `aborts k` are the user's
requests during the `k`-th of the four searches. -/
def eosRequest (cache : Option ProbeCache) (start : ℕ) (f : Image)
    (aborts : ℕ → ℕ → ℕ → Bool) : Outcome Request := do
  let info ← probe cache start f
  let eos ← eosTokenId cache start f
  let name ← findTensorAlias cache start f (aborts 0) aliasOutput 0
  let t ← getTensor cache start f name (aborts 1 0)
  logitRequest scratch cache start f (aborts 2) (aborts 3 0) t info.arch.nEmbd eos

end MicroK.Gguf
