import MicroK.GgufEncode

/-!
# GGUF files are read back

A file that was written within the limits of `ModelFile` is accepted, and its entries and tensors
are found by their names with what was encoded.
-/

namespace MicroK.Gguf

open Outcome List Image

/-- What the lookup of a value gives when it is asked for the type of the value. -/
def Value.stored : Value → Outcome (List UInt8)
  | .scalar .uint32 n | .scalar .int32 n | .scalar .float32 n => .ok (leBytes 4 n)
  | .scalar .uint64 n | .scalar .int64 n => .ok (leBytes 8 n)
  | .string text => .ok (text ++ [0])
  | _ => reject

theorem MetadataType.code_injective : Function.Injective MetadataType.code := by
  intro a b h
  cases a <;> cases b <;> first | rfl | cases h

section

variable {f : Image} {info : Info} {key : List UInt8} {v : Value} {off : ℕ}

theorem readScalar_encode {n k : ℕ} (h : f.Holds off (leBytes k n)) :
    (if rangeOk f.size off k = false then reject else f.readBytes off k) = .ok (leBytes k n) := by
  have hend := h.1
  rw [length_leBytes] at hend
  rw [if_neg (rangeOk_of_le hend), h.readBytes (by simp), take_of_length_le (by simp)]

theorem getMetadataValueFromInfo_encode (hsize : f.size < 2 ^ 32) (hv : v.Valid)
    (hfind : findMetadataEntry f key info.metadataCount info.metadataOffset =
      .ok (v.type.code, off)) (h : f.Holds off v.encode) :
    getMetadataValueFromInfo f info key v.type = v.stored := by
  rw [getMetadataValueFromInfo, hfind, ok_bind]
  rw [if_neg (not_not.mpr rfl)]
  cases hv with
  | @scalar type number size hscalar hnumber =>
    cases type <;> first | rfl | exact readScalar_encode h | cases hscalar
  | @string text hlen =>
    rw [Value.encode, holds_append, length_leBytes] at h
    obtain ⟨hcount, htext⟩ := h
    have hend := htext.1
    simp only [Value.type, Value.stored]
    rw [if_neg (rangeOk_of_le (by omega)), hcount.readLe (by omega), ok_bind,
      u32_of_lt (by omega), if_neg, htext.readBytes (by omega), ok_bind,
      take_of_length_le (by omega)]
    rw [not_or]
    exact ⟨by omega, rangeOk_of_le hend⟩
  | array hcount htype hvalid => rfl

theorem getMetadataValueFromInfo_mismatch {type : MetadataType} (htype : type ≠ v.type)
    (hfind : findMetadataEntry f key info.metadataCount info.metadataOffset =
      .ok (v.type.code, off)) : getMetadataValueFromInfo f info key type = reject := by
  rw [getMetadataValueFromInfo, hfind, ok_bind, if_pos]
  exact fun hcode => htype (MetadataType.code_injective hcode).symm

/-- What the lookup of an array gives: the number of elements and the offset of the first. -/
def Value.storedArray (off : ℕ) : Value → Outcome (ℕ × ℕ)
  | .array _ elements => .ok (elements.length, off + 12)
  | _ => reject

theorem getMetadataArrayFromInfo_encode (hv : v.Valid)
    (hfind : findMetadataEntry f key info.metadataCount info.metadataOffset =
      .ok (v.type.code, off)) (h : f.Holds off v.encode) :
    getMetadataArrayFromInfo f info key = v.storedArray off := by
  rw [getMetadataArrayFromInfo, hfind, ok_bind]
  dsimp only
  cases hv with
  | @scalar type number size hscalar hnumber =>
    refine if_pos fun hcode => ?_
    obtain rfl : type = .array := MetadataType.code_injective hcode
    cases hscalar
  | @string text hlen =>
    apply if_pos
    rw [Value.type]
    decide
  | @array elementType elements hcount htype hvalid =>
    rw [Value.encode, holds_append, holds_append, length_append, length_leBytes,
      length_leBytes] at h
    have hend := h.2.1
    rw [Value.type, if_neg (not_not.mpr rfl), if_neg (rangeOk_of_le (by omega)),
      h.1.2.readLe (by omega), ok_bind, u32_of_lt (by omega), Value.storedArray]

end

theorem exists_block_of_tensorByteSize {type size : ℕ} {dims : List ℕ}
    (h : tensorByteSize type dims = some size) :
    ∃ block, blockOf type = some block ∧ size ≤ exactByteSize block dims := by
  have hmul (k b : ℕ) : u64 (u64 (dims.tail.foldl (fun rows dim => u64 (rows * dim)) 1 * k) * b) ≤
      dims.tail.prod * k * b := by
    rw [u64_mul, foldl_u64_mul _ 1 (by norm_num), one_mul, mul_assoc, u64_mul, ← mul_assoc]
    exact Nat.mod_le _ _
  unfold tensorByteSize at h
  unfold blockOf exactByteSize
  dsimp only at h
  split_ifs at h ⊢ with h₁ h₂ h₃ hrow₃ h₄ hrow₄
  all_goals cases h
  · exact ⟨_, rfl, by simpa using hmul _ _⟩
  · exact ⟨_, rfl, by simpa using hmul _ _⟩
  · have hdiv : (dims.headD 0 + (32 - 1)) / 32 = dims.headD 0 / 32 := by omega
    exact ⟨_, rfl, by rw [hdiv]; exact hmul _ _⟩
  · have hdiv : (dims.headD 0 + (256 - 1)) / 256 = dims.headD 0 / 256 := by omega
    exact ⟨_, rfl, by rw [hdiv]; exact hmul _ _⟩

variable {f : Image}

theorem exists_archValue (hsize : f.size < 2 ^ 32) (info : Info) (key : String) :
    ∃ n, archValue f info key = .ok n := by
  have hget := sat_getMetadataValueFromInfo hsize info (keyBytes key)
  refine exists_ok_bind (hget .uint32).halts.attempt fun value => ?_
  cases value with
  | some value => exact ⟨_, rfl⟩
  | none =>
    refine exists_ok_bind (hget .uint64).halts.attempt fun value => ?_
    cases value <;> exact ⟨_, rfl⟩

theorem exists_archVocab (hsize : f.size < 2 ^ 32) (info : Info) :
    ∃ n, archVocab f info = .ok n := by
  have hget := sat_getMetadataValueFromInfo hsize info (keyBytes "llama.vocab_size")
  refine exists_ok_bind (hget .uint32).halts.attempt fun value => ?_
  cases value with
  | some value => exact ⟨_, rfl⟩
  | none =>
    refine exists_ok_bind (hget .uint64).halts.attempt fun value => ?_
    cases value with
    | some value => exact ⟨_, rfl⟩
    | none =>
      refine exists_ok_bind (sat_getMetadataArrayFromInfo hsize info _).halts.attempt
        fun tokens => ?_
      cases tokens <;> exact ⟨_, rfl⟩

theorem exists_archFloat (hsize : f.size < 2 ^ 32) (info : Info) (key : String)
    (default : ℕ) : ∃ n, archFloat f info key default = .ok n := by
  refine exists_ok_bind (sat_getMetadataValueFromInfo hsize info _ _).halts.attempt fun value => ?_
  cases value <;> exact ⟨_, rfl⟩

theorem exists_readArch (hsize : f.size < 2 ^ 32) (info : Info) :
    ∃ arch, readArch f info = .ok arch := by
  refine exists_ok_bind (sat_getMetadataValueFromInfo hsize info _ _).halts.attempt fun _ => ?_
  refine exists_ok_bind (exists_archValue hsize info _) fun _ => ?_
  refine exists_ok_bind (exists_archValue hsize info _) fun _ => ?_
  refine exists_ok_bind (exists_archValue hsize info _) fun _ => ?_
  refine exists_ok_bind (exists_archValue hsize info _) fun _ => ?_
  refine exists_ok_bind (exists_archValue hsize info _) fun _ => ?_
  refine exists_ok_bind (exists_archVocab hsize info) fun _ => ?_
  refine exists_ok_bind (exists_archFloat hsize info _ _) fun _ => ?_
  exact exists_ok_bind (exists_archFloat hsize info _ _) fun _ => ⟨_, rfl⟩

namespace ModelFile

variable (m : ModelFile)

def tensorStart : ℕ := headerSize + (m.entries.flatMap Entry.encode).length

def dataOffset : ℕ := dataStart m.version m.entries m.tensors

def info (arch : Arch) : Info :=
  ⟨m.version, m.tensors.length, m.entries.length, headerSize, m.tensorStart, m.dataOffset, arch⟩

theorem size_image : m.image.size = (encodeFile m.version m.entries m.tensors m.data).length := rfl

theorem size_image_lt : m.image.size < 2 ^ 32 := m.size_lt

theorem length_encodeHead : (encodeHead m.version m.entries m.tensors).length =
    m.tensorStart + (m.tensors.flatMap TensorEntry.encode).length := by
  simp only [encodeHead, encodeHeader, length_append, length_leBytes, tensorStart, headerSize]

theorem dataOffset_eq : m.dataOffset =
    (m.tensorStart + (m.tensors.flatMap TensorEntry.encode).length + 31) / 32 * 32 := by
  rw [dataOffset, dataStart, length_encodeHead]

theorem size_image_eq : m.image.size = m.dataOffset + m.data.length := by
  have hhead := m.length_encodeHead
  have hdata := m.dataOffset_eq
  rw [size_image, encodeFile, length_append, length_append, length_replicate]
  change _ + (m.dataOffset - _) + _ = _
  omega

theorem holds_encodeHead : m.image.Holds 0 (encodeHead m.version m.entries m.tensors) := by
  have hall := holds_ofList (encodeFile m.version m.entries m.tensors m.data)
  rw [encodeFile, append_assoc, holds_append] at hall
  rw [image, encodeFile, append_assoc]
  exact hall.1

theorem holds_header : m.image.Holds 0 (leBytes 4 ggufMagic) ∧
    m.image.Holds 4 (leBytes 4 m.version) ∧
    m.image.Holds 8 (leBytes 8 m.tensors.length) ∧
      m.image.Holds 16 (leBytes 8 m.entries.length) := by
  have h := m.holds_encodeHead
  simp only [encodeHead, encodeHeader, holds_append, length_append, length_leBytes,
    Nat.zero_add, Nat.reduceAdd] at h
  exact ⟨h.1.1.1.1.1, h.1.1.1.1.2, h.1.1.1.2, h.1.1.2⟩

theorem holds_entries : m.image.Holds headerSize (m.entries.flatMap Entry.encode) ∧
    m.image.Holds m.tensorStart (m.tensors.flatMap TensorEntry.encode) := by
  have h := m.holds_encodeHead
  simp only [encodeHead, encodeHeader, holds_append, length_append, length_leBytes,
    Nat.zero_add, Nat.reduceAdd] at h
  exact ⟨h.1.2, h.2⟩

theorem probeFile_image :
    ∃ arch, readArch m.image (m.info ⟨[], 0, 0, 0, 0, 0, 0, 0, 0⟩) = .ok arch ∧
      probeFile m.image = .ok (m.info arch) := by
  obtain ⟨hmagic, hversion, htensors, hentries⟩ := m.holds_header
  obtain ⟨hmetadata, hinfos⟩ := m.holds_entries
  have hsize := m.size_image_lt
  have hdata := m.size_image_eq
  have hstart : headerSize ≤ m.tensorStart := Nat.le_add_right _ _
  have halign : alignData (m.tensorStart + (m.tensors.flatMap TensorEntry.encode).length) =
      m.dataOffset := by
    have hoff := m.dataOffset_eq
    rw [hoff]
    exact alignData_eq (by omega)
  have hwide : headerSize ≤ m.image.size := hstart.trans (by have := hinfos.1; omega)
  have hversions := m.version_ok
  have hcounts : ¬ (m.entries.length > 1000 ∨ m.tensors.length > 1000) :=
    not_or.mpr ⟨not_lt.mpr m.entries_le, not_lt.mpr m.tensors_le⟩
  obtain ⟨arch, harch⟩ := exists_readArch hsize (m.info ⟨[], 0, 0, 0, 0, 0, 0, 0, 0⟩)
  refine ⟨arch, harch, ?_⟩
  rw [probeFile, if_neg (not_lt.mpr hwide), hmagic.readLe (by decide), ok_bind,
    if_neg (not_not.mpr rfl), hentries.readLe (by have := m.entries_le; omega), ok_bind,
    htensors.readLe (by have := m.tensors_le; omega), ok_bind, if_neg hcounts,
    hversion.readLe (by omega), ok_bind, if_neg (by omega),
    walkMetadata_encode hsize _ _ hwide hmetadata, ok_bind]
  change (walkTensors m.image m.tensors.length m.tensorStart >>= _) = _
  rw [walkTensors_encode hsize _ _ hinfos, ok_bind, halign, if_neg (by omega)]
  exact bind_eq_ok.mpr ⟨arch, harch, rfl⟩

def valueOffset (pre : List Entry) (e : Entry) : ℕ :=
  headerSize + (pre.flatMap Entry.encode).length + 8 + e.key.text.length + 4

variable {m}

theorem holds_value {pre post : List Entry} {e : Entry} (hm : m.entries = pre ++ e :: post) :
    m.image.Holds (valueOffset pre e) e.value.encode := by
  have h := m.holds_entries.1
  rw [hm, flatMap_append, flatMap_cons, holds_append, holds_append] at h
  exact (Entry.holds_parts h.2.1).2.2

theorem findMetadataEntry_image {pre post : List Entry} {e : Entry}
    (hm : m.entries = pre ++ e :: post) (arch : Arch) :
    findMetadataEntry m.image e.key.text (m.info arch).metadataCount (m.info arch).metadataOffset =
      .ok (e.value.type.code, valueOffset pre e) := by
  have hnodup := m.keys_distinct
  have hpre : ∀ d ∈ pre, d.key.text ≠ e.key.text := by
    rw [hm, map_append, map_cons, nodup_append] at hnodup
    exact fun d hd => hnodup.2.2 _ (mem_map_of_mem hd) _ mem_cons_self
  have hfind := findMetadataEntry_encode m.size_image_lt e.key.text m.entries headerSize
    m.holds_entries.1
  rw [hm, locate_append hpre, ← hm] at hfind
  exact hfind

theorem findMetadataEntry_image_none {key : List UInt8} (h : ∀ e ∈ m.entries, e.key.text ≠ key)
    (arch : Arch) :
    findMetadataEntry m.image key (m.info arch).metadataCount (m.info arch).metadataOffset =
      reject := by
  have hfind := findMetadataEntry_encode m.size_image_lt key m.entries headerSize
    m.holds_entries.1
  rw [locate_eq_none h] at hfind
  exact hfind

variable {t : TensorEntry}

theorem offset_lt (ht : t ∈ m.tensors) : t.offset < 2 ^ 32 := by
  have hsize := m.size_image_lt
  have hdata := m.size_image_eq
  have hoffset := (m.data_inside t ht).1
  omega

theorem findDescriptor_image (ht : t ∈ m.tensors) (arch : Arch) :
    ∃ next, findDescriptor m.image t.name.text (fun _ => false) (m.info arch).tensorCount 0
      (m.info arch).tensorInfoOffset = .ok ⟨t.name.text, t.dims, t.type, t.offset, next⟩ := by
  obtain ⟨pre, post, hm⟩ := append_of_mem ht
  have hnodup := m.names_distinct
  have hpre : ∀ d ∈ pre, d.name.text ≠ t.name.text ∧ d.offset < 2 ^ 64 := by
    rw [hm, map_append, map_cons, nodup_append] at hnodup
    intro d hd
    have hd' : d ∈ m.tensors := hm ▸ mem_append_left _ hd
    exact ⟨hnodup.2.2 _ (mem_map_of_mem hd) _ mem_cons_self,
      (offset_lt hd').trans (by norm_num)⟩
  have h := m.holds_entries.2
  have hcount : (m.info arch).tensorCount = pre.length + (post.length + 1) := by
    simp [info, hm]
  rw [hm, flatMap_append, flatMap_cons, holds_append, holds_append] at h
  rw [hcount, show (m.info arch).tensorInfoOffset = m.tensorStart from rfl,
    findDescriptor_append m.size_image_lt (fun _ => rfl) _ pre hpre _ _ h.1, findDescriptor,
    if_neg Bool.false_ne_true,
    readDescriptor_encode m.size_image_lt ((offset_lt ht).trans (by norm_num)) h.2.1, ok_bind,
    if_pos rfl]
  exact ⟨_, rfl⟩

theorem checkDescriptor_image (ht : t ∈ m.tensors) (arch : Arch) (next : ℕ) :
    checkDescriptor m.image (m.info arch) ⟨t.name.text, t.dims, t.type, t.offset, next⟩ =
      .ok ⟨t.name.text, t.type, t.dims, t.offset⟩ := by
  have hsize := m.size_image_lt
  have hdata := m.size_image_eq
  obtain ⟨hoffset, hextent⟩ := m.data_inside t ht
  have hstart : u64 ((m.info arch).dataOffset + t.offset) = m.dataOffset + t.offset :=
    u64_of_lt (show m.dataOffset + t.offset < 2 ^ 64 by omega)
  simp only [checkDescriptor, map_u32_eq_self.mpr t.dims_lt, u32_of_lt (offset_lt ht), hstart]
  rw [if_neg (by omega)]
  cases hbytes : tensorByteSize t.type t.dims with
  | none => rfl
  | some size =>
    obtain ⟨block, hblock, hle⟩ := exists_block_of_tensorByteSize hbytes
    have hinside := hextent block hblock
    exact if_neg (by omega)

theorem getTensor_image {cache : Option ProbeCache} {start : ℕ} {arch : Arch}
    (hprobe : probe cache start m.image = .ok (m.info arch)) (ht : t ∈ m.tensors) :
    getTensor cache start m.image t.name.text (fun _ => false) =
      .ok ⟨t.name.text, t.type, t.dims, t.offset⟩ := by
  obtain ⟨next, hfind⟩ := findDescriptor_image ht arch
  rw [getTensor, hprobe, ok_bind, hfind, ok_bind, checkDescriptor_image ht]

end ModelFile

/-- A file within the limits is accepted, and gives back what it was written with. The value of an
entry is found under its key and type, an array by the number and the start of its elements, and a
tensor by its name; nothing else is found. -/
theorem file_read_back (m : ModelFile) {cache : Option ProbeCache} {start : ℕ}
    (hcache : Coherent cache start m.image) :
    (∃ arch, probe cache start m.image = .ok (m.info arch)) ∧
      (∀ pre e post, m.entries = pre ++ e :: post →
        getMetadataValue cache start m.image e.key.text e.value.type = e.value.stored ∧
        (∀ type ≠ e.value.type, getMetadataValue cache start m.image e.key.text type = reject) ∧
        getMetadataArray cache start m.image e.key.text =
          e.value.storedArray (ModelFile.valueOffset pre e) ∧
        m.image.Holds (ModelFile.valueOffset pre e) e.value.encode) ∧
      (∀ t ∈ m.tensors, getTensor cache start m.image t.name.text (fun _ => false) =
        .ok ⟨t.name.text, t.type, t.dims, t.offset⟩) ∧
      (∀ key, (∀ e ∈ m.entries, e.key.text ≠ key) →
        (∀ type, getMetadataValue cache start m.image key type = reject) ∧
        getMetadataArray cache start m.image key = reject) ∧
      (∀ name, (∀ t ∈ m.tensors, t.name.text ≠ name) →
        ∀ abort, getTensor cache start m.image name abort = reject) := by
  obtain ⟨arch, -, hprobe⟩ := m.probeFile_image
  rw [← probe_eq_probeFile hcache] at hprobe
  refine ⟨⟨arch, hprobe⟩, fun pre e post hm => ?_, fun t ht => ?_, fun key hkey => ?_,
    fun name hname abort => ?_⟩
  · have hfind := ModelFile.findMetadataEntry_image hm arch
    have hholds := ModelFile.holds_value hm
    refine ⟨?_, fun type htype => ?_, ?_, hholds⟩
    · rw [getMetadataValue, hprobe, ok_bind]
      exact getMetadataValueFromInfo_encode m.size_image_lt e.valid hfind hholds
    · rw [getMetadataValue, hprobe, ok_bind]
      exact getMetadataValueFromInfo_mismatch htype hfind
    · rw [getMetadataArray, hprobe, ok_bind]
      exact getMetadataArrayFromInfo_encode e.valid hfind hholds
  · exact ModelFile.getTensor_image hprobe ht
  · have hfind := ModelFile.findMetadataEntry_image_none hkey arch
    constructor
    · intro type
      rw [getMetadataValue, hprobe, ok_bind, getMetadataValueFromInfo, hfind, reject_bind]
    · rw [getMetadataArray, hprobe, ok_bind, getMetadataArrayFromInfo, hfind, reject_bind]
  · have hother : ∀ t ∈ m.tensors, t.name.text ≠ name ∧ t.offset < 2 ^ 64 := fun t ht =>
      ⟨hname t ht, (ModelFile.offset_lt ht).trans (by norm_num)⟩
    have hnone : findDescriptor m.image name abort (m.info arch).tensorCount 0
        (m.info arch).tensorInfoOffset = reject :=
      findDescriptor_eq_reject m.size_image_lt abort m.tensors hother 0 _ m.holds_entries.2
    rw [getTensor, hprobe, ok_bind, hnone, reject_bind]

def sampleTensor : TensorEntry :=
  ⟨⟨[116], by decide, by decide⟩, [1], 0, 0, by decide, by decide, by decide, by decide⟩

/-- A file with one entry, of the key `k`, and one tensor, of the name `t`. -/
def sampleFile (v : Value) (hv : v.Valid) (hlen : v.encode.length ≤ 64) : ModelFile where
  version := 3
  entries := [⟨⟨[107], by decide, by decide⟩, v, hv⟩]
  tensors := [sampleTensor]
  data := [0, 0, 0, 0]
  version_ok := .inr rfl
  entries_le := by simp
  tensors_le := by simp
  keys_distinct := by simp
  names_distinct := by simp
  data_inside := by
    intro t ht
    obtain rfl := List.mem_singleton.mp ht
    refine ⟨by decide, fun block hblock => ?_⟩
    obtain rfl : (1, 4) = block := Option.some.inj hblock
    decide
  size_lt := by
    simp only [encodeFile, dataStart, encodeHead, encodeHeader, List.length_append, length_leBytes,
      List.length_replicate, List.flatMap_cons, List.flatMap_nil, Entry.length_encode,
      TensorEntry.length_encode, List.length_cons, List.length_nil, sampleTensor]
    omega

def wordFile : ModelFile :=
  sampleFile (.scalar .uint32 7) (.scalar rfl (by decide)) (by decide)

theorem file_read_back_word :
    getMetadataValue none 0 wordFile.image [107] .uint32 = .ok [7, 0, 0, 0] ∧
      getTensor none 0 wordFile.image [116] (fun _ => false) = .ok ⟨[116], 0, [1], 0⟩ := by
  have hcoherent : Coherent none 0 wordFile.image := fun info h => by cases h
  obtain ⟨-, hentries, htensors, -⟩ := file_read_back wordFile hcoherent
  have hmem : sampleTensor ∈ wordFile.tensors := mem_singleton.mpr rfl
  exact ⟨(hentries [] _ [] rfl).1, htensors sampleTensor hmem⟩

def byteFile : ModelFile :=
  sampleFile (.scalar .uint8 7) (.scalar rfl (by decide)) (by decide)

/-- The byte that is stored under `k` is not handed out. -/
theorem byte_value_refused :
    (∃ e ∈ byteFile.entries, e.key.text = [107] ∧ e.value = .scalar .uint8 7) ∧
      (∃ info, probe none 0 byteFile.image = .ok info) ∧
      ∀ type, getMetadataValue none 0 byteFile.image [107] type = reject := by
  refine ⟨⟨_, mem_cons_self, rfl, rfl⟩, ?_, fun type => ?_⟩
  · obtain ⟨arch, -, hprobe⟩ := byteFile.probeFile_image
    exact ⟨_, hprobe⟩
  · cases type <;> decide +kernel

end MicroK.Gguf
