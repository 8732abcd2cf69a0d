import MicroK.GgufModel

/-!
# What an accepted GGUF file looks like

The probe walks the metadata and the descriptors, each walk forward and inside the file. The parts
of an accepted file stand in their order unless the descriptors end in the last 31 bytes of the
32-bit address range, where rounding their end up wraps to 0.
-/

namespace MicroK.Gguf

open Outcome Image

variable {size offset need : ℕ}

theorem rangeOk_eq_true : rangeOk size offset need = true ↔ offset + need ≤ size := by
  unfold rangeOk
  split_ifs with h
  · simp only [false_iff]
    omega
  · simp only [decide_eq_true_eq]
    omega

theorem le_of_rangeOk (h : ¬ rangeOk size offset need = false) :
    offset + need ≤ size := rangeOk_eq_true.mp (by simpa using h)

theorem rangeOk_of_le (h : offset + need ≤ size) : ¬ rangeOk size offset need = false := by
  rw [rangeOk_eq_true.mpr h]
  decide

section

variable {f : Image}

/-- A value ends inside the file, or has a fixed size. -/
def SkipFits (f : Image) (offset skip : ℕ) : Prop := skip ≤ 8 ∨ offset + skip ≤ f.size

theorem scalarSize_le {type size : ℕ} (h : scalarSize type = some size) : size ≤ 8 := by
  unfold scalarSize at h
  split at h <;> simp_all <;> omega

/-- The elements of an array end inside the file, where an element may be looked for at any offset
behind the head of the array. -/
theorem sat_skipElements (hsize : f.size < 2 ^ 32) {element : ℕ → Outcome ℕ} {offset : ℕ}
    (helement : ∀ o, offset + 12 ≤ o → o ≤ f.size → (element o).Sat fun _ => True) (n : ℕ) :
    ∀ skip, 12 ≤ skip → offset + skip ≤ f.size →
      (skipElements element f.size offset n skip).Sat fun skip => offset + skip ≤ f.size := by
  induction n with
  | zero => exact fun skip _ hskip => sat_ok hskip
  | succ n ih =>
    intro skip hlow hskip
    have hoff : u32 (offset + skip) = offset + skip := u32_of_lt (by omega)
    rw [skipElements, hoff]
    refine sat_bind (helement _ (by omega) hskip) fun inner _ => sat_guard fun hrange => ?_
    have hinner := le_of_rangeOk hrange
    rw [u32_of_lt (by omega)]
    exact ih _ (by omega) (by omega)

/-- Each level of nesting takes 12 bytes, so fuel for the rest of the file is enough. -/
theorem sat_skipValue (hsize : f.size < 2 ^ 32) (fuel : ℕ) :
    ∀ offset type, 0 < fuel → f.size < offset + 12 * fuel →
      (skipValue f fuel offset type).Sat (SkipFits f offset) := by
  induction fuel with
  | zero => intro _ _ h; omega
  | succ fuel ih =>
    intro offset type _ hfuel
    rw [skipValue]
    split
    · next size hscalar => exact sat_ok (.inl (scalarSize_le hscalar))
    · split_ifs with hstring hhead harray hhead
      · trivial
      · have hread := le_of_rangeOk hhead
        refine sat_bind (sat_readLe hread) fun len _ => sat_guard fun hlen => ?_
        refine sat_guard fun hrange => ?_
        have hend := le_of_rangeOk hrange
        rw [u32_of_lt (by omega)] at hend
        refine sat_ok (.inr ?_)
        rw [u32_of_lt (by omega)]
        omega
      · trivial
      · have hread := le_of_rangeOk hhead
        refine sat_bind (sat_readLe (by omega)) fun subType _ => ?_
        refine sat_bind (sat_readLe (by omega)) fun count _ => sat_guard fun _ => ?_
        refine (sat_skipElements hsize (fun o hlow _ => ?_) count 12 le_rfl hread).mono
          fun skip hskip => .inr hskip
        exact (ih o subType (by omega) (by omega)).mono fun _ _ => trivial
      · trivial

/-- One metadata entry with an empty key, whose value is an array of one array, and so on. -/
def nestedArrays (size : ℕ) : Image where
  size := size
  byte i :=
    if i < 36 then (leBytes 4 ggufMagic ++ leBytes 4 3 ++ leBytes 8 0 ++ leBytes 8 1 ++
      leBytes 8 0 ++ leBytes 4 MetadataType.array.code).getD i 0
    else (leBytes 4 MetadataType.array.code ++ leBytes 8 1).getD ((i - 36) % 12) 0

theorem skipValue_nestedArrays {size : ℕ} (hsize : size < 2 ^ 32) (fuel k : ℕ)
    (h : 36 + 12 * (k + fuel) ≤ size) :
    skipValue (nestedArrays size) fuel (36 + 12 * k) MetadataType.array.code = endless := by
  induction fuel generalizing k with
  | zero => rfl
  | succ fuel ih =>
    have hbyte (i : ℕ) (hi : i < 12) : (nestedArrays size).byte (36 + 12 * k + i) =
        (leBytes 4 MetadataType.array.code ++ leBytes 8 1).getD i 0 := by
      simp only [nestedArrays]
      rw [if_neg (by omega), show (36 + 12 * k + i - 36) % 12 = i by omega]
    have hholds : (nestedArrays size).Holds (36 + 12 * k)
        (leBytes 4 MetadataType.array.code ++ leBytes 8 1) := by
      refine ⟨le_trans (by simp; omega) h, List.ext_getElem (by simp) fun i h₁ h₂ => ?_⟩
      simp only [Image.bytes, List.getElem_map, List.getElem_range]
      rw [hbyte i (by simpa using h₁), List.getD_eq_getElem _ _ h₂]
    obtain ⟨htype, hcount⟩ := holds_append.mp hholds
    have hread := hcount.1
    simp only [length_leBytes] at hread hcount
    rw [skipValue, show scalarSize MetadataType.array.code = none from rfl]
    rw [if_neg (by decide), if_pos rfl, if_neg (rangeOk_of_le (by omega)), htype.readLe (by decide),
      ok_bind, hcount.readLe (by decide), ok_bind, if_neg (by decide), skipElements,
      u32_of_lt (by omega), show 36 + 12 * k + 12 = 36 + 12 * (k + 1) by omega,
      ih (k + 1) (by omega)]
    rfl

/-- Values start at offset 36 at the earliest. A call of `gguf_skip_value` there makes at most
`depth` nested ones in every file up to a size exactly when the size leaves no room for more array
heads. -/
theorem skipDepth_iff (size : BitVec 32) (depth : ℕ) :
    (∀ f : Image, f.size ≤ size.toNat → ∀ offset type, 36 ≤ offset →
      skipValue f (depth + 1) offset type ≠ endless) ↔ size.toNat < 36 + 12 * (depth + 1) := by
  constructor
  · intro hall
    by_contra! hroom
    exact hall (nestedArrays size.toNat) le_rfl 36 MetadataType.array.code le_rfl
      (skipValue_nestedArrays size.isLt (depth + 1) 0 (by omega))
  · intro hroom f hf offset type hoffset
    exact (sat_skipValue (by omega) (depth + 1) offset type (by omega) (by omega)).ne_endless

/-- A file of 192 KiB makes more nested calls than a stack of 64 KiB has room for return
addresses. -/
theorem nestedArrays_deep :
    skipValue (nestedArrays 196644) 16384 36 MetadataType.array.code = endless :=
  skipValue_nestedArrays (by norm_num) 16384 0 (by norm_num)

variable (hsize : f.size < 2 ^ 32)
include hsize

theorem sat_nameLength (ptr : ℕ) :
    (nameLength f ptr).Sat fun len => ptr + 8 + len ≤ f.size ∧ u32 (ptr + 8) = ptr + 8 := by
  refine sat_guard fun hrange => ?_
  have hread := le_of_rangeOk hrange
  refine sat_bind (sat_readLe hread) fun len _ => sat_guard fun hlen => ?_
  have hptr : u32 (ptr + 8) = ptr + 8 := u32_of_lt (by omega)
  rw [not_or, hptr] at hlen
  exact sat_ok ⟨le_of_rangeOk hlen.2, hptr⟩

theorem sat_findMetadataEntry (key : List UInt8) (n : ℕ) :
    ∀ ptr, (findMetadataEntry f key n ptr).Sat fun entry => entry.2 ≤ f.size := by
  induction n with
  | zero => exact fun ptr => trivial
  | succ n ih =>
    intro ptr
    refine sat_bind (sat_nameLength hsize ptr) fun keyLen hkey => ?_
    obtain ⟨hend, hptr⟩ := hkey
    rw [hptr]
    refine sat_bind (sat_readBytes (by omega)) fun currentKey _ => ?_
    rw [u32_of_lt (by omega : ptr + 8 + keyLen < 2 ^ 32)]
    refine sat_guard fun hrange => ?_
    have htype := le_of_rangeOk hrange
    refine sat_bind (sat_readLe htype) fun valType _ => ?_
    have hvalue : u32 (ptr + 8 + keyLen + 4) = ptr + 8 + keyLen + 4 := u32_of_lt (by omega)
    rw [hvalue]
    split_ifs
    · exact sat_ok htype
    · exact sat_bind (sat_skipValue hsize _ _ _ (by omega) (by omega)) fun skip _ => ih _

theorem sat_getMetadataValueFromInfo (info : Info) (key : List UInt8)
    (expectedType : MetadataType) :
    (getMetadataValueFromInfo f info key expectedType).Sat fun _ => True := by
  refine sat_bind (sat_findMetadataEntry hsize key _ _) fun entry _ => sat_guard fun _ => ?_
  have hword (n : ℕ) :
      (if rangeOk f.size entry.2 n = false then reject else f.readBytes entry.2 n).Sat
        fun _ => True :=
    sat_guard fun hrange => (sat_readBytes (le_of_rangeOk hrange)).mono fun _ _ => trivial
  split
  · exact hword 4
  · exact hword 4
  · exact hword 4
  · exact hword 8
  · exact hword 8
  · refine sat_guard fun hrange => ?_
    have hread := le_of_rangeOk hrange
    refine sat_bind (sat_readLe hread) fun len _ => sat_guard fun hlen => ?_
    rw [not_or, u32_of_lt (by omega : entry.2 + 8 < 2 ^ 32)] at hlen
    have htext := le_of_rangeOk hlen.2
    exact sat_bind (sat_readBytes (by omega)) fun _ _ => trivial
  · trivial

theorem sat_getMetadataArrayFromInfo (info : Info) (key : List UInt8) :
    (getMetadataArrayFromInfo f info key).Sat fun _ => True := by
  refine sat_bind (sat_findMetadataEntry hsize key _ _) fun entry _ => sat_guard fun _ => ?_
  refine sat_guard fun hrange => ?_
  have hread := le_of_rangeOk hrange
  exact sat_bind (sat_readLe (by omega)) fun _ _ => trivial

end

section

variable {f : Image}

variable (hsize : f.size < 2 ^ 32)
include hsize

theorem sat_walkMetadata (n : ℕ) :
    ∀ ptr ≤ f.size, (walkMetadata f n ptr).Sat fun stop => ptr ≤ stop ∧ stop ≤ f.size := by
  induction n with
  | zero => exact fun ptr hptr => sat_ok ⟨le_rfl, hptr⟩
  | succ n ih =>
    intro ptr _
    refine sat_bind (sat_nameLength hsize ptr) fun keyLen hkey => ?_
    obtain ⟨hend, hptr⟩ := hkey
    rw [hptr, u32_of_lt (by omega : ptr + 8 + keyLen < 2 ^ 32)]
    refine sat_guard fun hrange => ?_
    have htype := le_of_rangeOk hrange
    refine sat_bind (sat_readLe htype) fun valType _ => ?_
    rw [u32_of_lt (by omega : ptr + 8 + keyLen + 4 < 2 ^ 32)]
    refine sat_bind (sat_skipValue hsize _ _ _ (by omega) (by omega)) fun skip _ => ?_
    refine sat_guard fun hskip => ?_
    have hvalue := le_of_rangeOk hskip
    rw [u32_of_lt (by omega)]
    exact (ih _ hvalue).mono fun stop hstop => ⟨by omega, hstop.2⟩

theorem sat_walkTensors (n : ℕ) :
    ∀ ptr ≤ f.size, (walkTensors f n ptr).Sat fun stop => ptr ≤ stop ∧ stop ≤ f.size := by
  induction n with
  | zero => exact fun ptr hptr => sat_ok ⟨le_rfl, hptr⟩
  | succ n ih =>
    intro ptr _
    refine sat_bind (sat_nameLength hsize ptr) fun nameLen hname => ?_
    obtain ⟨hend, hptr⟩ := hname
    rw [hptr, u32_of_lt (by omega : ptr + 8 + nameLen < 2 ^ 32)]
    refine sat_guard fun hrange => ?_
    have hcount := le_of_rangeOk hrange
    refine sat_bind (sat_readLe hcount) fun ndims _ => sat_guard fun hndims => ?_
    rw [u32_of_lt (by omega : ptr + 8 + nameLen + 4 < 2 ^ 32)]
    refine sat_guard fun hrange => ?_
    have hdims := le_of_rangeOk hrange
    rw [u32_of_lt (by omega : ptr + 8 + nameLen + 4 + ndims * 8 < 2 ^ 32)]
    refine sat_guard fun hrange => ?_
    have hlast := le_of_rangeOk hrange
    rw [u32_of_lt (by omega)]
    exact (ih _ hlast).mono fun stop hstop => ⟨by omega, hstop.2⟩

variable (info : Info)

theorem sat_archValue (key : String) : (archValue f info key).Sat fun _ => True := by
  have hget := sat_getMetadataValueFromInfo hsize info (keyBytes key)
  refine sat_bind (sat_attempt (hget .uint32)) fun value _ => ?_
  cases value with
  | some value => trivial
  | none =>
    refine sat_bind (sat_attempt (hget .uint64)) fun value _ => ?_
    cases value <;> trivial

theorem sat_archVocab : (archVocab f info).Sat fun _ => True := by
  have hget := sat_getMetadataValueFromInfo hsize info (keyBytes "llama.vocab_size")
  refine sat_bind (sat_attempt (hget .uint32)) fun value _ => ?_
  cases value with
  | some value => trivial
  | none =>
    refine sat_bind (sat_attempt (hget .uint64)) fun value _ => ?_
    cases value with
    | some value => trivial
    | none =>
      refine sat_bind (sat_attempt (sat_getMetadataArrayFromInfo hsize info _)) fun tokens _ => ?_
      cases tokens <;> trivial

theorem sat_archFloat (key : String) (default : ℕ) :
    (archFloat f info key default).Sat fun _ => True := by
  refine sat_bind (sat_attempt (sat_getMetadataValueFromInfo hsize info _ _)) fun value _ => ?_
  cases value <;> trivial

theorem sat_readArch : (readArch f info).Sat fun _ => True := by
  refine sat_bind (sat_attempt (sat_getMetadataValueFromInfo hsize info _ _)) fun _ _ => ?_
  refine sat_bind (sat_archValue hsize info _) fun _ _ => ?_
  refine sat_bind (sat_archValue hsize info _) fun _ _ => ?_
  refine sat_bind (sat_archValue hsize info _) fun _ _ => ?_
  refine sat_bind (sat_archValue hsize info _) fun _ _ => ?_
  refine sat_bind (sat_archValue hsize info _) fun _ _ => ?_
  refine sat_bind (sat_archVocab hsize info) fun _ _ => ?_
  refine sat_bind (sat_archFloat hsize info _ _) fun _ _ => ?_
  exact sat_bind (sat_archFloat hsize info _ _) fun _ _ => trivial

omit hsize

structure Probed (f : Image) (info : Info) (stop : ℕ) : Prop where
  header : headerSize ≤ f.size
  metadataOffset : info.metadataOffset = headerSize
  metadataCount : info.metadataCount = leValue (f.bytes 16 8)
  tensorCount : info.tensorCount = leValue (f.bytes 8 8)
  metadata : walkMetadata f info.metadataCount headerSize = .ok info.tensorInfoOffset
  tensors : walkTensors f info.tensorCount info.tensorInfoOffset = .ok stop
  dataOffset : info.dataOffset = alignData stop
  dataInside : info.dataOffset ≤ f.size

variable (hsize : f.size < 2 ^ 32)
include hsize

theorem sat_probeFile : (probeFile f).Sat fun info => ∃ stop, Probed f info stop := by
  refine sat_guard fun hheader => ?_
  have hheader : headerSize ≤ f.size := by omega
  have hread (off n : ℕ) (h : off + n ≤ 24) : f.readLe off n = .ok (leValue (f.bytes off n)) :=
    readLe_eq (h.trans hheader)
  rw [hread 0 4 (by norm_num), ok_bind, hread 16 8 (by norm_num), ok_bind, hread 8 8 (by norm_num),
    ok_bind, hread 4 4 (by norm_num), ok_bind]
  generalize hmetadata : leValue (f.bytes 16 8) = metadataCount
  generalize htensors : leValue (f.bytes 8 8) = tensorCount
  generalize leValue (f.bytes 0 4) = magic
  generalize leValue (f.bytes 4 4) = version
  refine sat_guard fun _ => sat_guard fun _ => sat_guard fun _ => ?_
  have hwalk := sat_walkMetadata hsize metadataCount headerSize hheader
  cases hinfo : walkMetadata f metadataCount headerSize with
  | fault => exact absurd hinfo hwalk.ne_fault
  | endless => exact absurd hinfo hwalk.ne_endless
  | reject => exact sat_reject
  | ok tensorInfoOffset =>
    have hwalk := sat_walkTensors hsize tensorCount tensorInfoOffset (hwalk.of_eq_ok hinfo).2
    rw [ok_bind]
    cases hstop : walkTensors f tensorCount tensorInfoOffset with
    | fault => exact absurd hstop hwalk.ne_fault
    | endless => exact absurd hstop hwalk.ne_endless
    | reject => exact sat_reject
    | ok stop =>
      refine sat_guard fun hdata => ?_
      refine sat_bind (sat_readArch hsize _) fun arch _ => ?_
      exact sat_ok ⟨stop, hheader, rfl, hmetadata.symm, htensors.symm, hinfo, hstop, rfl,
        not_lt.mp hdata⟩

theorem sat_readDims (n : ℕ) : ∀ ptr, (readDims f n ptr).Sat fun dims =>
      dims.length = n ∧ (n ≠ 0 → ptr + 8 * n ≤ f.size) := by
  induction n with
  | zero => exact fun ptr => sat_ok ⟨rfl, fun h => absurd rfl h⟩
  | succ n ih =>
    intro ptr
    refine sat_guard fun hrange => ?_
    have hread := le_of_rangeOk hrange
    refine sat_bind (sat_readLe hread) fun dim _ => ?_
    rw [u32_of_lt (by omega : ptr + 8 < 2 ^ 32)]
    refine sat_bind (ih _) fun dims hdims => sat_ok ⟨congrArg (· + 1) hdims.1, fun _ => ?_⟩
    rcases Nat.eq_zero_or_pos n with rfl | hpos
    · omega
    · have := hdims.2 (by omega)
      omega

theorem sat_readDescriptor (ptr : ℕ) :
    (readDescriptor f ptr).Sat fun d => d.dims ≠ [] ∧ d.offset < 2 ^ 64 := by
  refine sat_bind (sat_nameLength hsize ptr) fun nameLen hname => ?_
  obtain ⟨hend, hptr⟩ := hname
  rw [hptr]
  refine sat_bind (sat_readBytes (by omega)) fun name _ => ?_
  rw [u32_of_lt (by omega : ptr + 8 + nameLen < 2 ^ 32)]
  refine sat_guard fun hrange => ?_
  have hcount := le_of_rangeOk hrange
  refine sat_bind (sat_readLe hcount) fun ndims _ => sat_guard fun hndims => ?_
  rw [u32_of_lt (by omega : ptr + 8 + nameLen + 4 < 2 ^ 32)]
  refine sat_bind (sat_readDims hsize ndims _) fun dims hread => ?_
  rw [u32_of_lt (by omega : ptr + 8 + nameLen + 4 + 8 * ndims < 2 ^ 32)]
  refine sat_guard fun hrange => ?_
  have hlast := le_of_rangeOk hrange
  rw [u32_of_lt (by omega : ptr + 8 + nameLen + 4 + 8 * ndims + 4 < 2 ^ 32)]
  refine sat_bind (sat_readLe (by omega)) fun type _ => ?_
  have hne : dims ≠ [] := List.ne_nil_of_length_pos (by omega)
  exact sat_bind (sat_readLe (by omega)) fun offset hoffset => sat_ok ⟨hne, hoffset⟩

theorem sat_findDescriptor (name : List UInt8) (abort : ℕ → Bool) (n : ℕ) :
    ∀ i ptr, (findDescriptor f name abort n i ptr).Sat fun d =>
      d.dims ≠ [] ∧ d.offset < 2 ^ 64 := by
  induction n with
  | zero => exact fun _ _ => sat_reject
  | succ n ih =>
    intro i ptr
    refine sat_guard fun _ => sat_bind (sat_readDescriptor hsize ptr) fun d hd => ?_
    split_ifs
    · exact sat_ok hd
    · exact ih _ _

omit hsize

theorem sat_checkDescriptor (info : Info) (d : Descriptor) :
    (checkDescriptor f info d).Sat fun _ => True := by
  refine sat_guard fun _ => ?_
  split
  · exact sat_guard fun _ => sat_ok trivial
  · exact sat_ok trivial

end

/-- The parts of a file stand one after the other, the data on a multiple of 32. -/
structure Ordered (info : Info) (size : ℕ) : Prop where
  metadata : info.metadataOffset = 24
  tensors : info.metadataOffset ≤ info.tensorInfoOffset
  data : info.tensorInfoOffset ≤ info.dataOffset
  inside : info.dataOffset ≤ size
  aligned : info.dataOffset % 32 = 0

def descriptorsEnd (f : Image) : Outcome ℕ := do
  let tensorInfoOffset ← walkMetadata f (leValue (f.bytes 16 8)) headerSize
  walkTensors f (leValue (f.bytes 8 8)) tensorInfoOffset

variable {stop : ℕ}

theorem Probed.descriptorsEnd_eq {f : Image} {info : Info} (h : Probed f info stop) :
    descriptorsEnd f = .ok stop := by
  unfold descriptorsEnd
  rw [← h.metadataCount, ← h.tensorCount, h.metadata, ok_bind, h.tensors]

theorem alignData_eq (h : stop + 31 < 2 ^ 32) : alignData stop = (stop + 31) / 32 * 32 := by
  unfold alignData
  rw [u32_of_lt h]
  exact and_high_mask h (by norm_num : 5 ≤ 32)

theorem alignData_of_wrap (hstop : stop < 2 ^ 32) (h : ¬ stop + 31 < 2 ^ 32) :
    alignData stop = 0 := by
  have hlow : u32 (stop + 31) < 32 := by
    unfold u32
    omega
  unfold alignData
  rw [show (0xFFFFFFE0 : ℕ) = 2 ^ 32 - 2 ^ 5 by norm_num, and_high_mask (u32_lt _) (by norm_num)]
  omega

/-- Rounding up the end of the descriptors is the only step that can spoil the order. -/
theorem Probed.ordered_iff {f : Image} {info : Info} (hsize : f.size < 2 ^ 32)
    (h : Probed f info stop) : Ordered info f.size ↔ stop + 31 < 2 ^ 32 := by
  have hmetadata := (sat_walkMetadata hsize _ _ h.header).of_eq_ok h.metadata
  have htensors := (sat_walkTensors hsize _ _ hmetadata.2).of_eq_ok h.tensors
  have hlow : 24 ≤ info.tensorInfoOffset := hmetadata.1
  constructor
  · intro ho
    by_contra hwrap
    have hzero : info.dataOffset = 0 := by
      rw [h.dataOffset, alignData_of_wrap (by omega) hwrap]
    have := ho.data
    omega
  · intro hstop
    have hdata : info.dataOffset = (stop + 31) / 32 * 32 := by
      rw [h.dataOffset, alignData_eq hstop]
    refine ⟨h.metadataOffset, ?_, by omega, h.dataInside, by omega⟩
    rw [h.metadataOffset]
    exact hmetadata.1

def roundUp (alignment n : ℕ) : ℕ := (n + (alignment - 1)) / alignment * alignment

/-- The alignment of the data that the metadata declare, or the default of the format. -/
def declaredAlignment (f : Image) (info : Info) : ℕ :=
  match getMetadataValueFromInfo f info (keyBytes "general.alignment") .uint32 with
  | .ok value => leValue value
  | _ => 32

/-- The probe does not look at the declared alignment, so the data of an accepted file are looked
for in the right place exactly when 32 gives the same place and rounding up does not wrap. -/
theorem dataOffset_declared_iff (f : Image) (info : Info) (k : ℕ) (hsize : f.size < 2 ^ 32)
    (hprobe : probeFile f = .ok info) (halignment : declaredAlignment f info = 2 ^ k) :
    ∃ stop, descriptorsEnd f = .ok stop ∧
      (info.dataOffset = roundUp (declaredAlignment f info) stop ↔
        stop + 31 < 2 ^ 32 ∧ roundUp 32 stop = roundUp (declaredAlignment f info) stop) := by
  obtain ⟨stop, h⟩ := (sat_probeFile hsize).of_eq_ok hprobe
  have hmetadata := (sat_walkMetadata hsize _ _ h.header).of_eq_ok h.metadata
  have htensors := (sat_walkTensors hsize _ _ hmetadata.2).of_eq_ok h.tensors
  refine ⟨stop, h.descriptorsEnd_eq, ?_⟩
  rw [h.dataOffset, halignment]
  by_cases hwrap : stop + 31 < 2 ^ 32
  · rw [alignData_eq hwrap]
    exact (and_iff_right hwrap).symm
  · rw [alignData_of_wrap (by omega) hwrap]
    refine iff_of_false (fun hzero => ?_) fun hfit => hwrap hfit.1
    have hpos : 0 < 2 ^ k := Nat.two_pow_pos k
    have hle : stop ≤ roundUp (2 ^ k) stop := by
      have hdiv := Nat.lt_div_mul_add (a := stop + (2 ^ k - 1)) hpos
      unfold roundUp
      omega
    omega

/-- A file with one tensor whose data stand on a multiple of the declared alignment. -/
def alignedTensor (alignment : ℕ) : Image :=
  let head := leBytes 4 ggufMagic ++ leBytes 4 3 ++ leBytes 8 1 ++ leBytes 8 1 ++ leBytes 8 17 ++
    keyBytes "general.alignment" ++ leBytes 4 MetadataType.uint32.code ++ leBytes 4 alignment ++
    leBytes 8 1 ++ [116] ++ leBytes 4 1 ++ leBytes 8 1 ++ leBytes 4 0 ++ leBytes 8 0
  .ofList (head ++ leBytes (roundUp alignment head.length + 4 - head.length) 0)

def alignedInfo : Info :=
  ⟨3, 1, 1, 24, 57, 96, ⟨[], 0, 0, 0, 0, 0, 0, 0, defaultRopeFreqBase⟩⟩

theorem dataOffset_declared_32 :
    probeFile (alignedTensor 32) = .ok alignedInfo ∧ ∃ stop,
      descriptorsEnd (alignedTensor 32) = .ok stop ∧ (alignedInfo.dataOffset = roundUp 32 stop ↔
        stop + 31 < 2 ^ 32 ∧ roundUp 32 stop = roundUp 32 stop) := by
  have hprobe : probeFile (alignedTensor 32) = .ok alignedInfo := by decide +kernel
  have hdeclared : declaredAlignment (alignedTensor 32) alignedInfo = 2 ^ 5 := by decide +kernel
  have h := dataOffset_declared_iff _ _ 5 (by decide +kernel) hprobe hdeclared
  rw [hdeclared] at h
  exact ⟨hprobe, h⟩

/-- The descriptors end at 90, so data aligned to 64 bytes start at 128, but the probe says 96. -/
theorem dataOffset_not_declared :
    probeFile (alignedTensor 64) = .ok alignedInfo ∧
      declaredAlignment (alignedTensor 64) alignedInfo = 64 ∧
      descriptorsEnd (alignedTensor 64) = .ok 90 ∧ alignedInfo.dataOffset = 96 ∧
      roundUp 64 90 = 128 := by
  decide +kernel

/-- What the cache answers for a file is what probing the file gives. -/
def Coherent (cache : Option ProbeCache) (start : ℕ) (f : Image) : Prop :=
  ∀ info, ProbeCache.hit cache start f.size = some info → probeFile f = .ok info

theorem probe_eq_probeFile {cache : Option ProbeCache} {start : ℕ} {f : Image}
    (h : Coherent cache start f) : probe cache start f = probeFile f := by
  unfold probe
  split
  · next info hit => exact (h info hit).symm
  · rfl

theorem sat_probe {f : Image} (hsize : f.size < 2 ^ 32) (cache : Option ProbeCache) (start : ℕ) :
    (probe cache start f).Sat fun _ => True := by
  unfold probe
  split
  · exact sat_ok trivial
  · exact (sat_probeFile hsize).mono fun _ _ => trivial

theorem sat_getTensor {f : Image} (hsize : f.size < 2 ^ 32) (cache : Option ProbeCache) (start : ℕ)
    (name : List UInt8) (abort : ℕ → Bool) :
    (getTensor cache start f name abort).Sat fun _ => True :=
  sat_bind (sat_probe hsize cache start) fun info _ =>
    sat_bind (sat_findDescriptor hsize name abort _ _ _) fun d _ => sat_checkDescriptor info d

/-- The functions of the reader neither leave the file nor run on, whatever the cache holds. Where
it holds what probing the file gives, an accepted file has its parts in order exactly when its
descriptors end more than 31 bytes below 4 GiB. -/
theorem reader_safe (f : Image) (hsize : f.size < 2 ^ 32) (cache : Option ProbeCache) (start : ℕ) :
    (probe cache start f).Halts ∧
      (∀ key type, (getMetadataValue cache start f key type).Halts) ∧
      (∀ key, (getMetadataArray cache start f key).Halts) ∧
      (∀ name abort, (getTensor cache start f name abort).Halts) ∧
      (Coherent cache start f →
        ((∀ info, probe cache start f = .ok info → Ordered info f.size) ↔
          ∀ info stop, probe cache start f = .ok info → descriptorsEnd f = .ok stop →
            stop + 31 < 2 ^ 32)) := by
  have hprobe := sat_probe hsize cache start
  refine ⟨hprobe.halts, fun key type => ?_, fun key => ?_, fun name abort => ?_, ?_⟩
  · exact (sat_bind hprobe fun info _ => sat_getMetadataValueFromInfo hsize info key type).halts
  · exact (sat_bind hprobe fun info _ => sat_getMetadataArrayFromInfo hsize info key).halts
  · exact (sat_getTensor hsize cache start name abort).halts
  · intro hcache
    rw [probe_eq_probeFile hcache]
    constructor
    · intro h info stop hinfo hstop
      obtain ⟨stop', hprobed⟩ := (sat_probeFile hsize).of_eq_ok hinfo
      obtain rfl : stop' = stop := by simpa [hprobed.descriptorsEnd_eq] using hstop
      exact (hprobed.ordered_iff hsize).mp (h info hinfo)
    · intro h info hinfo
      obtain ⟨stop, hprobed⟩ := (sat_probeFile hsize).of_eq_ok hinfo
      exact (hprobed.ordered_iff hsize).mpr (h info stop hinfo hprobed.descriptorsEnd_eq)

/-- A file with one entry and one tensor, and what the probe finds in it. -/
def smallModel : Image :=
  .ofList (leBytes 4 ggufMagic ++ leBytes 4 3 ++ leBytes 8 1 ++ leBytes 8 1 ++
  (leBytes 8 1 ++ [107] ++ leBytes 4 0 ++ [7]) ++
  (leBytes 8 1 ++ [116] ++ leBytes 4 1 ++ leBytes 8 1 ++ leBytes 4 0 ++ leBytes 8 0) ++
  leBytes 29 0)

def smallInfo : Info := ⟨3, 1, 1, 24, 38, 96, ⟨[], 0, 0, 0, 0, 0, 0, 0, defaultRopeFreqBase⟩⟩

theorem reader_safe_small :
    probe none 0 smallModel = .ok smallInfo ∧ Ordered smallInfo smallModel.size ∧
      (getTensor none 0 smallModel [116] fun _ => false).Halts ∧
      (getTensor (some ⟨0, 100, smallInfo⟩) 0 smallModel [116] fun _ => false).Halts := by
  have hprobe : probe none 0 smallModel = .ok smallInfo := by decide +kernel
  have hsafe := reader_safe smallModel (by decide)
  have hcoherent : Coherent none 0 smallModel := fun info h => by cases h
  refine ⟨hprobe, ?_, (hsafe none 0).2.2.2.1 _ _, (hsafe (some ⟨0, 100, smallInfo⟩) 0).2.2.2.1 _ _⟩
  refine ((hsafe none 0).2.2.2.2 hcoherent).mpr (fun info stop _ hstop => ?_) _ hprobe
  have hend : descriptorsEnd smallModel = .ok 71 := by decide +kernel
  obtain rfl : 71 = stop := by simpa [hend] using hstop
  norm_num

/-- One entry, whose string ends with the last byte below 4 GiB. -/
def hugeModel : Image where
  size := 2 ^ 32 - 1
  byte := fun i => (leBytes 4 ggufMagic ++ leBytes 4 3 ++ leBytes 8 0 ++ leBytes 8 1 ++
    leBytes 8 0 ++
    leBytes 4 MetadataType.string.code ++ leBytes 8 (2 ^ 32 - 45)).getD i 0

/-- The data of this file is taken to start at its first byte. -/
theorem data_before_metadata :
    ∃ info, probe none 0 hugeModel = .ok info ∧ info.dataOffset = 0 ∧
      ¬ Ordered info hugeModel.size := by
  refine ⟨⟨3, 0, 1, 24, 2 ^ 32 - 1, 0, ⟨[], 0, 0, 0, 0, 0, 0, 0, defaultRopeFreqBase⟩⟩,
    by decide +kernel, rfl, fun h => ?_⟩
  exact absurd h.data (by decide)

end MicroK.Gguf
