import Mathlib.Data.List.TakeWhile
import MicroK.GgufExtent

/-!
# Writing GGUF files

The format as a writer produces it: a header, entries of a key and a typed value, tensor
descriptors, padding to a multiple of 32 and the data. A `ModelFile` carries the limits within which
the reader is expected to read it back.
-/

namespace MicroK.Gguf

open List Image Nat

inductive Value where
  | scalar (type : MetadataType) (number : ℕ)
  | string (text : List UInt8)
  | array (elementType : MetadataType) (elements : List Value)

def Value.type : Value → MetadataType
  | .scalar type _ => type
  | .string _ => .string
  | .array _ _ => .array

/-- The elements of an array have its element type. -/
inductive Value.Valid : Value → Prop where
  | scalar {type : MetadataType} {number size : ℕ} (hsize : scalarSize type.code = some size)
      (hnumber : number < 256 ^ size) : Valid (.scalar type number)
  | string {text : List UInt8} (hlen : text.length ≤ 63) : Valid (.string text)
  | array {elementType : MetadataType} {elements : List Value} (hcount : elements.length ≤ 262144)
      (htype : ∀ e ∈ elements, e.type = elementType) (hvalid : ∀ e ∈ elements, Valid e) :
      Valid (.array elementType elements)

mutual

def Value.encode : Value → List UInt8
  | .scalar type number => leBytes ((scalarSize type.code).getD 0) number
  | .string text => leBytes 8 text.length ++ text
  | .array elementType elements =>
    leBytes 4 elementType.code ++ leBytes 8 elements.length ++ encodeElements elements

def encodeElements : List Value → List UInt8
  | [] => []
  | v :: vs => v.encode ++ encodeElements vs

end

/-- Names and keys are C strings that fit the reader's buffers. -/
structure Name where
  text : List UInt8
  len_le : text.length ≤ 62
  nul_free : 0 ∉ text

def Name.encode (name : Name) : List UInt8 := leBytes 8 name.text.length ++ name.text

structure Entry where
  key : Name
  value : Value
  valid : value.Valid

def Entry.encode (e : Entry) : List UInt8 :=
  e.key.encode ++ leBytes 4 e.value.type.code ++ e.value.encode

structure TensorEntry where
  name : Name
  dims : List ℕ
  type : ℕ
  offset : ℕ
  ndims_pos : 0 < dims.length
  ndims_le : dims.length ≤ 4
  dims_lt : ∀ dim ∈ dims, dim < 2 ^ 32
  type_lt : type < 2 ^ 32

def TensorEntry.encode (t : TensorEntry) : List UInt8 :=
  t.name.encode ++ leBytes 4 t.dims.length ++ t.dims.flatMap (leBytes 8) ++ leBytes 4 t.type ++
    leBytes 8 t.offset

def encodeHeader (version : ℕ) (entries : List Entry) (tensors : List TensorEntry) : List UInt8 :=
  leBytes 4 ggufMagic ++ leBytes 4 version ++ leBytes 8 tensors.length ++ leBytes 8 entries.length

def encodeHead (version : ℕ) (entries : List Entry) (tensors : List TensorEntry) : List UInt8 :=
  encodeHeader version entries tensors ++ entries.flatMap Entry.encode ++
    tensors.flatMap TensorEntry.encode

def dataStart (version : ℕ) (entries : List Entry) (tensors : List TensorEntry) : ℕ :=
  ((encodeHead version entries tensors).length + 31) / 32 * 32

def encodeFile (version : ℕ) (entries : List Entry) (tensors : List TensorEntry)
    (data : List UInt8) : List UInt8 :=
  encodeHead version entries tensors ++
    List.replicate (dataStart version entries tensors - (encodeHead version entries tensors).length)
      0 ++ data

structure ModelFile where
  version : ℕ
  entries : List Entry
  tensors : List TensorEntry
  data : List UInt8
  version_ok : version = 2 ∨ version = 3
  entries_le : entries.length ≤ 1000
  tensors_le : tensors.length ≤ 1000
  keys_distinct : (entries.map fun e => e.key.text).Nodup
  names_distinct : (tensors.map fun t => t.name.text).Nodup
  data_inside : ∀ t ∈ tensors, t.offset ≤ data.length ∧
    ∀ block, blockOf t.type = some block → t.offset + exactByteSize block t.dims ≤ data.length
  size_lt : (encodeFile version entries tensors data).length < 2 ^ 32

def ModelFile.image (m : ModelFile) : Image :=
  .ofList (encodeFile m.version m.entries m.tensors m.data)

open Outcome

variable {f : Image}

theorem MetadataType.code_lt (type : MetadataType) : type.code < 256 ^ 4 := by
  cases type <;> decide

theorem skipElements_encode (hsize : f.size < 2 ^ 32) {element : ℕ → Outcome ℕ} {offset : ℕ}
    (elements : List Value) (helement : ∀ e ∈ elements, ∀ o, offset + 12 ≤ o → f.Holds o e.encode →
      element o = .ok e.encode.length) :
    ∀ skip, 12 ≤ skip → f.Holds (offset + skip) (encodeElements elements) →
      skipElements element f.size offset elements.length skip =
        .ok (skip + (encodeElements elements).length) := by
  induction elements with
  | nil => intro skip _ _; rfl
  | cons e elements ih =>
    intro skip hlow hholds
    rw [encodeElements, holds_append] at hholds
    obtain ⟨hhead, htail⟩ := hholds
    have hend := hhead.1
    rw [length_cons, skipElements, u32_of_lt (by omega : offset + skip < 2 ^ 32),
      helement e mem_cons_self _ (by omega) hhead, ok_bind, if_neg (rangeOk_of_le hend),
      u32_of_lt (by omega), ih (fun e he => helement e (.tail _ he)) _ (by omega)
        (by rwa [← add_assoc]), encodeElements, length_append, add_assoc]

theorem skipValue_encode (hsize : f.size < 2 ^ 32) {v : Value} (hv : v.Valid) :
    ∀ fuel offset, 0 < fuel → f.size < offset + fuel → f.Holds offset v.encode →
      skipValue f fuel offset v.type.code = .ok v.encode.length := by
  induction hv with
  | @scalar type number size hscalar hnumber =>
    intro fuel offset hpos _ _
    obtain ⟨fuel, rfl⟩ := exists_eq_succ_of_ne_zero hpos.ne'
    rw [skipValue, Value.type, hscalar, Value.encode, hscalar, length_leBytes, Option.getD_some]
  | @string text hlen =>
    intro fuel offset hpos _ hholds
    obtain ⟨fuel, rfl⟩ := exists_eq_succ_of_ne_zero hpos.ne'
    rw [Value.encode, holds_append, length_leBytes] at hholds
    obtain ⟨hcount, htext⟩ := hholds
    have hend := htext.1
    rw [skipValue]
    simp only [Value.type, MetadataType.code, scalarSize, if_true]
    rw [if_neg (rangeOk_of_le (by omega)), hcount.readLe (by omega), ok_bind, if_neg (by omega),
      u32_of_lt (by omega : offset + 8 < 2 ^ 32), if_neg (rangeOk_of_le hend),
      u32_of_lt (by omega), Value.encode, length_append, length_leBytes]
  | @array elementType elements hcount htype hvalid ih =>
    intro fuel offset hpos hfuel hholds
    obtain ⟨fuel, rfl⟩ := exists_eq_succ_of_ne_zero hpos.ne'
    rw [Value.encode, holds_append, holds_append, length_append, length_leBytes,
      length_leBytes] at hholds
    obtain ⟨⟨hsub, hcnt⟩, helements⟩ := hholds
    have hend := helements.1
    rw [skipValue]
    simp only [Value.type, MetadataType.code, scalarSize]
    rw [if_neg (by decide), if_true, if_neg (rangeOk_of_le (by omega)),
      hsub.readLe elementType.code_lt,
      ok_bind, hcnt.readLe (by omega), ok_bind, if_neg (by omega)]
    rw [skipElements_encode hsize elements (fun e he o hlow ho => ?_) 12 le_rfl helements]
    · simp only [Value.encode, length_append, length_leBytes]
    · rw [← htype e he]
      exact ih e he fuel o (by omega) (by omega) ho

variable {ptr : ℕ}

theorem nameLength_encode (hsize : f.size < 2 ^ 32) {name : Name}
    (h : f.Holds ptr name.encode) : nameLength f ptr = .ok name.text.length := by
  rw [Name.encode, holds_append, length_leBytes] at h
  obtain ⟨hlen, htext⟩ := h
  have hend := htext.1
  have hle := name.len_le
  rw [nameLength, if_neg (rangeOk_of_le (by omega)), hlen.readLe (by omega), ok_bind,
    u32_of_lt (by omega), if_neg]
  rw [not_or]
  exact ⟨by omega, rangeOk_of_le hend⟩

theorem cText_of_nul_free {l : List UInt8} (h : 0 ∉ l) : cText l = l := by
  refine takeWhile_eq_self_iff.mpr fun b hb => ?_
  simp only [decide_eq_true_eq]
  rintro rfl
  exact h hb

theorem readName_encode {name : Name} (h : f.Holds ptr name.encode) : f.readBytes (ptr + 8)
    (min name.text.length 63) = .ok name.text ∧ cText name.text = name.text := by
  rw [Name.encode, holds_append, length_leBytes] at h
  have hle := name.len_le
  refine ⟨?_, cText_of_nul_free name.nul_free⟩
  rw [min_eq_left (by omega), h.2.readBytes le_rfl, take_length]

@[simp] theorem Name.length_encode (name : Name) : name.encode.length = 8 + name.text.length := by
  simp [Name.encode]

@[simp] theorem Entry.length_encode (e : Entry) :
    e.encode.length = 8 + e.key.text.length + 4 + e.value.encode.length := by
  simp only [Entry.encode, length_append, Name.length_encode, length_leBytes]

theorem Entry.holds_parts {e : Entry} (h : f.Holds ptr e.encode) : f.Holds ptr e.key.encode ∧
      f.Holds (ptr + 8 + e.key.text.length) (leBytes 4 e.value.type.code) ∧
      f.Holds (ptr + 8 + e.key.text.length + 4) e.value.encode := by
  simp only [Entry.encode, holds_append, length_append, length_leBytes,
    Name.length_encode, ← add_assoc] at h
  exact ⟨h.1.1, h.1.2, h.2⟩

/-- The first entry with a key, and the offset of its value. -/
def locate (key : List UInt8) : List Entry → ℕ → Option (Entry × ℕ)
  | [], _ => none
  | e :: entries, ptr =>
    if e.key.text = key then some (e, ptr + 8 + e.key.text.length + 4)
    else locate key entries (ptr + e.encode.length)

theorem findMetadataEntry_encode (hsize : f.size < 2 ^ 32) (key : List UInt8)
    (entries : List Entry) : ∀ ptr, f.Holds ptr (entries.flatMap Entry.encode) →
      findMetadataEntry f key entries.length ptr =
        match locate key entries ptr with
        | none => reject
        | some found => .ok (found.1.value.type.code, found.2) := by
  induction entries with
  | nil => intro ptr _; rfl
  | cons e entries ih =>
    intro ptr h
    rw [flatMap_cons, holds_append] at h
    obtain ⟨hkey, htype, hvalue⟩ := Entry.holds_parts h.1
    obtain ⟨hread, htext⟩ := readName_encode hkey
    have hend := hvalue.1
    rw [length_cons, findMetadataEntry, nameLength_encode hsize hkey, ok_bind]
    dsimp only
    rw [u32_of_lt (by omega : ptr + 8 < 2 ^ 32), hread, ok_bind,
      u32_of_lt (by omega : ptr + 8 + e.key.text.length < 2 ^ 32),
      if_neg (rangeOk_of_le (by omega)), htype.readLe (MetadataType.code_lt _), ok_bind,
      u32_of_lt (by omega : ptr + 8 + e.key.text.length + 4 < 2 ^ 32), htext, locate]
    split_ifs with hfound
    · rfl
    · rw [skipValue_encode hsize e.valid _ _ (by omega) (by omega) hvalue, ok_bind,
        u32_of_lt (by omega), ← ih _ h.2, Entry.length_encode]
      simp only [add_assoc]

theorem locate_append {pre post : List Entry} {e : Entry}
    (hpre : ∀ d ∈ pre, d.key.text ≠ e.key.text) : ∀ ptr,
      locate e.key.text (pre ++ e :: post) ptr =
        some (e, ptr + (pre.flatMap Entry.encode).length + 8 + e.key.text.length + 4) := by
  induction pre with
  | nil => intro ptr; simp [locate]
  | cons d pre ih =>
    intro ptr
    rw [cons_append, locate, if_neg (hpre d mem_cons_self),
      ih (fun d hd => hpre d (.tail _ hd)), flatMap_cons, length_append,
      ← add_assoc]

theorem locate_eq_none {key : List UInt8} {entries : List Entry}
    (h : ∀ e ∈ entries, e.key.text ≠ key) : ∀ ptr, locate key entries ptr = none := by
  induction entries with
  | nil => exact fun _ => rfl
  | cons e entries ih =>
    intro ptr
    rw [locate, if_neg (h e mem_cons_self), ih fun d hd => h d (.tail _ hd)]

theorem walkMetadata_encode (hsize : f.size < 2 ^ 32) (entries : List Entry) :
    ∀ ptr, ptr ≤ f.size → f.Holds ptr (entries.flatMap Entry.encode) →
      walkMetadata f entries.length ptr = .ok (ptr + (entries.flatMap Entry.encode).length) := by
  induction entries with
  | nil => intro ptr _ _; rfl
  | cons e entries ih =>
    intro ptr _ h
    rw [flatMap_cons, holds_append] at h
    obtain ⟨hkey, htype, hvalue⟩ := Entry.holds_parts h.1
    have hend := hvalue.1
    have hnext : ptr + 8 + e.key.text.length + 4 + e.value.encode.length =
      ptr + e.encode.length := by
      rw [Entry.length_encode]
      omega
    rw [length_cons, walkMetadata, nameLength_encode hsize hkey, ok_bind]
    dsimp only
    rw [u32_of_lt (by omega : ptr + 8 < 2 ^ 32),
      u32_of_lt (by omega : ptr + 8 + e.key.text.length < 2 ^ 32),
      if_neg (rangeOk_of_le (by omega)), htype.readLe (MetadataType.code_lt _), ok_bind,
      u32_of_lt (by omega : ptr + 8 + e.key.text.length + 4 < 2 ^ 32),
      skipValue_encode hsize e.valid _ _ (by omega) (by omega) hvalue, ok_bind,
      if_neg (rangeOk_of_le hend), u32_of_lt (by omega), hnext, ih _ (by omega) h.2,
      flatMap_cons, length_append, add_assoc]

@[simp] theorem length_flatMap_leBytes (dims : List ℕ) :
    (dims.flatMap (leBytes 8)).length = 8 * dims.length := by
  induction dims with
  | nil => rfl
  | cons dim dims ih =>
    rw [flatMap_cons, length_append, length_leBytes, ih, length_cons]
    omega

@[simp] theorem TensorEntry.length_encode (t : TensorEntry) :
    t.encode.length = 8 + t.name.text.length + 4 + 8 * t.dims.length + 12 := by
  simp only [TensorEntry.encode, length_append, Name.length_encode, length_leBytes,
    length_flatMap_leBytes]

theorem TensorEntry.holds_parts {t : TensorEntry} (h : f.Holds ptr t.encode) :
    f.Holds ptr t.name.encode ∧ f.Holds (ptr + 8 + t.name.text.length) (leBytes 4 t.dims.length) ∧
      f.Holds (ptr + 8 + t.name.text.length + 4) (t.dims.flatMap (leBytes 8)) ∧
      f.Holds (ptr + 8 + t.name.text.length + 4 + 8 * t.dims.length) (leBytes 4 t.type) ∧
      f.Holds (ptr + 8 + t.name.text.length + 4 + 8 * t.dims.length + 4) (leBytes 8 t.offset) := by
  simp only [TensorEntry.encode, holds_append, length_append, length_leBytes,
    Name.length_encode, length_flatMap_leBytes, ← add_assoc] at h
  exact ⟨h.1.1.1.1, h.1.1.1.2, h.1.1.2, h.1.2, h.2⟩

variable (hsize : f.size < 2 ^ 32)
include hsize

theorem readDims_encode (dims : List ℕ) (hdims : ∀ dim ∈ dims, dim < 2 ^ 32) :
    ∀ ptr, f.Holds ptr (dims.flatMap (leBytes 8)) → readDims f dims.length ptr = .ok dims := by
  induction dims with
  | nil => intro ptr _; rfl
  | cons dim dims ih =>
    intro ptr h
    rw [flatMap_cons, holds_append, length_leBytes] at h
    have hend := h.2.1
    have hdim := hdims dim mem_cons_self
    rw [length_cons, readDims, if_neg (rangeOk_of_le (by omega)), h.1.readLe (by omega), ok_bind,
      u32_of_lt (by omega), ih (fun d hd => hdims d (.tail _ hd)) _ h.2, ok_bind]

theorem readDescriptor_encode {t : TensorEntry}
    (hoffset : t.offset < 2 ^ 64) (h : f.Holds ptr t.encode) :
    readDescriptor f ptr = .ok ⟨t.name.text, t.dims, t.type, t.offset, ptr + t.encode.length⟩ := by
  obtain ⟨hname, hndims, hdims, htype, hoff⟩ := TensorEntry.holds_parts h
  obtain ⟨hread, htext⟩ := readName_encode hname
  have hend := hoff.1
  have hpos := t.ndims_pos
  have hle := t.ndims_le
  have htype_lt := t.type_lt
  rw [length_leBytes] at hend
  rw [readDescriptor, nameLength_encode hsize hname, ok_bind]
  dsimp only
  rw [u32_of_lt (by omega : ptr + 8 < 2 ^ 32), hread, ok_bind,
    u32_of_lt (by omega : ptr + 8 + t.name.text.length < 2 ^ 32),
    if_neg (rangeOk_of_le (by omega)), hndims.readLe (by omega), ok_bind, if_neg (by omega),
    u32_of_lt (by omega : ptr + 8 + t.name.text.length + 4 < 2 ^ 32),
    readDims_encode hsize t.dims t.dims_lt _ hdims, ok_bind,
    u32_of_lt (by omega : ptr + 8 + t.name.text.length + 4 + 8 * t.dims.length < 2 ^ 32),
    if_neg (rangeOk_of_le (by omega)), htype.readLe (by omega), ok_bind,
    u32_of_lt (by omega : ptr + 8 + t.name.text.length + 4 + 8 * t.dims.length + 4 < 2 ^ 32),
    hoff.readLe (by omega), ok_bind, htext, u32_of_lt (by omega), TensorEntry.length_encode]
  simp only [add_assoc]

theorem walkTensors_encode (tensors : List TensorEntry) :
    ∀ ptr, f.Holds ptr (tensors.flatMap TensorEntry.encode) → walkTensors f tensors.length ptr =
        .ok (ptr + (tensors.flatMap TensorEntry.encode).length) := by
  induction tensors with
  | nil => intro ptr _; rfl
  | cons t tensors ih =>
    intro ptr h
    rw [flatMap_cons, holds_append] at h
    obtain ⟨hname, hndims, -, -, hoff⟩ := TensorEntry.holds_parts h.1
    have hend := hoff.1
    have hpos := t.ndims_pos
    have hle := t.ndims_le
    rw [length_leBytes] at hend
    have hnext : ptr + 8 + t.name.text.length + 4 + t.dims.length * 8 + 12 =
      ptr + t.encode.length := by
      rw [TensorEntry.length_encode]
      omega
    rw [length_cons, walkTensors, nameLength_encode hsize hname, ok_bind]
    rw [u32_of_lt (by omega : ptr + 8 < 2 ^ 32),
      u32_of_lt (by omega : ptr + 8 + t.name.text.length < 2 ^ 32),
      if_neg (rangeOk_of_le (by omega)), hndims.readLe (by omega), ok_bind, if_neg (by omega),
      u32_of_lt (by omega : ptr + 8 + t.name.text.length + 4 < 2 ^ 32),
      if_neg (rangeOk_of_le (by omega)),
      u32_of_lt (by omega : ptr + 8 + t.name.text.length + 4 + t.dims.length * 8 < 2 ^ 32),
      if_neg (rangeOk_of_le (by omega)), u32_of_lt (by omega), hnext, ih _ h.2, flatMap_cons,
      length_append, add_assoc]

theorem findDescriptor_append {name : List UInt8} {abort : ℕ → Bool}
    (habort : ∀ i, abort i = false) (n : ℕ) (pre : List TensorEntry)
    (hpre : ∀ t ∈ pre, t.name.text ≠ name ∧ t.offset < 2 ^ 64) :
    ∀ i ptr, f.Holds ptr (pre.flatMap TensorEntry.encode) →
      findDescriptor f name abort (pre.length + n) i ptr =
        findDescriptor f name abort n (i + pre.length)
          (ptr + (pre.flatMap TensorEntry.encode).length) := by
  induction pre with
  | nil => intro i ptr _; simp
  | cons t pre ih =>
    intro i ptr h
    rw [flatMap_cons, holds_append] at h
    obtain ⟨hname, hoffset⟩ := hpre t mem_cons_self
    rw [length_cons, add_right_comm, findDescriptor, habort, if_neg Bool.false_ne_true,
      readDescriptor_encode hsize hoffset h.1, ok_bind, if_neg hname,
      ih (fun t ht => hpre t (.tail _ ht)) _ _ h.2, flatMap_cons,
      length_append, add_assoc, add_assoc, add_comm 1]

theorem findDescriptor_eq_reject {name : List UInt8} (abort : ℕ → Bool) (tensors : List TensorEntry)
    (hother : ∀ t ∈ tensors, t.name.text ≠ name ∧ t.offset < 2 ^ 64) :
    ∀ i ptr, f.Holds ptr (tensors.flatMap TensorEntry.encode) →
      findDescriptor f name abort tensors.length i ptr = reject := by
  induction tensors with
  | nil => intro i ptr _; rfl
  | cons t tensors ih =>
    intro i ptr h
    rw [flatMap_cons, holds_append] at h
    obtain ⟨hname, hoffset⟩ := hother t mem_cons_self
    rw [length_cons, findDescriptor, readDescriptor_encode hsize hoffset h.1, ok_bind,
      if_neg hname, ih (fun t ht => hother t (.tail _ ht)) _ _ h.2, ite_self]

end MicroK.Gguf
