import MicroK.GgufLayout

/-!
# The extent of a tensor

The check of a descriptor is made on dimensions cut to 32 bits and in 64-bit arithmetic. It bounds
the extent of the tensor, as the file gives it, when nothing is cut off, the size does not exceed 64
bits and the rows are whole blocks; for other rows of a quantised tensor only the start is checked.
-/

namespace MicroK.Gguf

open Outcome List

/-- The number of elements and of bytes of a block, for the types whose extent is checked. -/
def blockOf (type : ℕ) : Option (ℕ × ℕ) :=
  if type = GgmlType.f32.code then some (1, 4)
  else if type = GgmlType.f16.code then some (1, 2)
  else if type = GgmlType.q4_0.code then some (32, 18)
  else if type = GgmlType.q6_k.code then some (256, 210)
  else none

def exactByteSize (block : ℕ × ℕ) (dims : List ℕ) : ℕ :=
  dims.tail.prod * ((dims.headD 0 + (block.1 - 1)) / block.1) * block.2

/-- The tensor that is handed out is the one of the file, and lies in the file. -/
structure Faithful (f : Image) (info : Info) (block : ℕ × ℕ) (d : Descriptor) (t : Tensor) :
    Prop where
  dims : t.dims = d.dims
  offset : t.offset = d.offset
  inside : info.dataOffset + d.offset + exactByteSize block d.dims ≤ f.size

/-- The numbers of a descriptor that the check of its extent gets right. -/
structure Checkable (f : Image) (info : Info) (block : ℕ × ℕ) (d : Descriptor) : Prop where
  dims : ∀ dim ∈ d.dims, dim < 2 ^ 32
  offset : d.offset < 2 ^ 32
  size : exactByteSize block d.dims < 2 ^ 64
  rows : block.1 ∣ d.dims.headD 0 ∨
    info.dataOffset + d.offset + exactByteSize block d.dims ≤ f.size

theorem map_u32_eq_self {l : List ℕ} : l.map u32 = l ↔ ∀ x ∈ l, x < 2 ^ 32 := by
  have hmap : l.map u32 = l.map id ↔ ∀ x ∈ l, u32 x = id x := map_inj_left
  rw [map_id] at hmap
  rw [hmap]
  constructor
  · intro h x hx
    have hself : u32 x = x := h x hx
    exact hself ▸ u32_lt x
  · exact fun h x hx => u32_of_lt (h x hx)

theorem u64_lt (n : ℕ) : u64 n < 2 ^ 64 := Nat.mod_lt _ (by norm_num)

theorem u64_of_lt {n : ℕ} (h : n < 2 ^ 64) : u64 n = n := Nat.mod_eq_of_lt h

theorem u64_mul (a b : ℕ) : u64 (u64 a * b) = u64 (a * b) := Nat.mod_mul_mod a b (2 ^ 64)

theorem foldl_u64_mul (l : List ℕ) : ∀ a < 2 ^ 64,
    l.foldl (fun rows dim => u64 (rows * dim)) a = u64 (a * l.prod) := by
  induction l with
  | nil =>
    intro a ha
    rw [foldl_nil, prod_nil, mul_one, u64_of_lt ha]
  | cons dim l ih =>
    intro a _
    rw [foldl_cons, ih _ (u64_lt _), prod_cons, u64_mul, mul_assoc]

variable {block : ℕ × ℕ}

theorem blockOf_cases {type : ℕ} (h : blockOf type = some block) :
    type = GgmlType.f32.code ∧ block = (1, 4) ∨ type = GgmlType.f16.code ∧ block = (1, 2) ∨
      type = GgmlType.q4_0.code ∧ block = (32, 18) ∨
      type = GgmlType.q6_k.code ∧ block = (256, 210) := by
  unfold blockOf at h
  split_ifs at h <;> simp_all

/-- The size that the source computes is the exact one, cut to 64 bits. -/
theorem tensorByteSize_eq {type : ℕ} (hblock : blockOf type = some block)
    {dims : List ℕ} (hrows : block.1 ∣ dims.headD 0) (hpos : dims.headD 0 ≠ 0) :
    tensorByteSize type dims = some (u64 (exactByteSize block dims)) := by
  have hmul (k b : ℕ) : u64 (u64 (dims.tail.foldl (fun rows dim => u64 (rows * dim)) 1 * k) * b) =
      u64 (dims.tail.prod * k * b) := by
    rw [foldl_u64_mul _ 1 (by norm_num), one_mul, u64_mul, mul_assoc, u64_mul, ← mul_assoc]
  unfold tensorByteSize exactByteSize
  obtain ⟨n, hn⟩ := hrows
  rcases blockOf_cases hblock with ⟨rfl, rfl⟩ | ⟨rfl, rfl⟩ | ⟨rfl, rfl⟩ | ⟨rfl, rfl⟩
  · rw [if_pos rfl, hmul]
    simp
  · rw [if_neg (by decide), if_pos rfl, hmul]
    simp
  · dsimp only at hn ⊢
    have hdiv : (dims.headD 0 + (32 - 1)) / 32 = dims.headD 0 / 32 := by omega
    have hwhole : ¬ (dims.headD 0 = 0 ∨ dims.headD 0 % 32 ≠ 0) := by omega
    rw [if_neg (by decide), if_neg (by decide), if_pos rfl, if_neg hwhole, hmul, hdiv]
  · dsimp only at hn ⊢
    have hdiv : (dims.headD 0 + (256 - 1)) / 256 = dims.headD 0 / 256 := by omega
    have hwhole : ¬ (dims.headD 0 = 0 ∨ dims.headD 0 % 256 ≠ 0) := by omega
    rw [if_neg (by decide), if_neg (by decide), if_neg (by decide), if_pos rfl, if_neg hwhole, hmul,
      hdiv]

theorem checkDescriptor_ok {f : Image} {info : Info} {d : Descriptor} {t : Tensor}
    (h : checkDescriptor f info d = .ok t) :
    t = ⟨d.name, d.type, d.dims.map u32, u32 d.offset⟩ ∧
      u64 (info.dataOffset + d.offset) ≤ f.size ∧
      ∀ size, tensorByteSize d.type (d.dims.map u32) = some size →
        size ≤ f.size - u64 (info.dataOffset + d.offset) := by
  unfold checkDescriptor at h
  dsimp only at h
  split_ifs at h with hstart
  cases hsize : tensorByteSize d.type (d.dims.map u32) with
  | none =>
    rw [hsize] at h
    cases h
    exact ⟨rfl, not_lt.mp hstart, fun size hs => by cases hs⟩
  | some size =>
    rw [hsize] at h
    dsimp only at h
    split_ifs at h with hfit
    cases h
    refine ⟨rfl, not_lt.mp hstart, fun size' hs => ?_⟩
    cases hs
    exact not_lt.mp hfit

/-- The check bounds the extent of a tensor exactly when its numbers are checkable. -/
theorem faithful_iff_checkable {f : Image} {info : Info} {d : Descriptor}
    {t : Tensor} (hsize : f.size < 2 ^ 32) (hdata : info.dataOffset ≤ f.size)
    (hblock : blockOf d.type = some block) (ht : checkDescriptor f info d = .ok t) :
    Faithful f info block d t ↔ Checkable f info block d := by
  obtain ⟨rfl, hstart, hextent⟩ := checkDescriptor_ok ht
  constructor
  · intro h
    have hdims := map_u32_eq_self.mp h.dims
    have hoffset : d.offset < 2 ^ 32 := h.offset ▸ u32_lt d.offset
    have hinside := h.inside
    exact ⟨hdims, hoffset, by omega, .inr hinside⟩
  · intro h
    have hdims := map_u32_eq_self.mpr h.dims
    have hoffset := h.offset
    refine ⟨hdims, u32_of_lt hoffset, ?_⟩
    rw [u64_of_lt (by omega)] at hstart hextent
    rcases h.rows with hrows | hinside
    · by_cases hzero : d.dims.headD 0 = 0
      · have hempty : exactByteSize block d.dims = 0 := by
          rw [exactByteSize, hzero]
          rcases blockOf_cases hblock with ⟨-, rfl⟩ | ⟨-, rfl⟩ | ⟨-, rfl⟩ | ⟨-, rfl⟩ <;> norm_num
        omega
      · have hbytes := tensorByteSize_eq hblock hrows hzero
        rw [u64_of_lt h.size] at hbytes
        have := hextent _ (by rw [hdims, hbytes])
        omega
    · exact hinside

/-- A tensor that is found in an accepted file is the one that the file describes, and lies in the
file, exactly when the numbers of its descriptor are checkable. -/
theorem getTensor_faithful_iff {f : Image} {info : Info} {cache : Option ProbeCache} {start : ℕ}
    {name : List UInt8} {abort : ℕ → Bool} {t : Tensor} {block : ℕ × ℕ} (hsize : f.size < 2 ^ 32)
    (hprobe : probeFile f = .ok info) (hcache : Coherent cache start f)
    (ht : getTensor cache start f name abort = .ok t) (hblock : blockOf t.type = some block) :
    ∃ d, findDescriptor f name abort info.tensorCount 0 info.tensorInfoOffset = .ok d ∧
      (Faithful f info block d t ↔ Checkable f info block d) := by
  unfold getTensor at ht
  rw [probe_eq_probeFile hcache, hprobe, ok_bind] at ht
  obtain ⟨d, hd, hcheck⟩ := bind_eq_ok.mp ht
  obtain ⟨stop, hprobed⟩ := (sat_probeFile hsize).of_eq_ok hprobe
  refine ⟨d, hd, faithful_iff_checkable hsize hprobed.dataInside ?_ hcheck⟩
  rw [(checkDescriptor_ok hcheck).1] at hblock
  exact hblock

/-- A file with one tensor, of the name `t`, and four bytes of data behind the padding. -/
def oneTensor (dims : List ℕ) (type offset : ℕ) : Image :=
  let head := leBytes 4 ggufMagic ++ leBytes 4 3 ++ leBytes 8 1 ++ leBytes 8 0 ++ leBytes 8 1 ++
    [116] ++ leBytes 4 dims.length ++ dims.flatMap (leBytes 8) ++ leBytes 4 type ++ leBytes 8 offset
  .ofList (head ++ leBytes (alignData head.length + 4 - head.length) 0)

theorem getTensor_faithful_one :
    getTensor none 0 (oneTensor [1] 0 0) [116] (fun _ => false) = .ok ⟨[116], 0, [1], 0⟩ ∧
      ∃ info d, Faithful (oneTensor [1] 0 0) info (1, 4) d ⟨[116], 0, [1], 0⟩ := by
  have hget : getTensor none 0 (oneTensor [1] 0 0) [116] (fun _ => false) =
      .ok ⟨[116], 0, [1], 0⟩ := by decide +kernel
  let info : Info := ⟨3, 1, 0, 24, 24, 64, ⟨[], 0, 0, 0, 0, 0, 0, 0, defaultRopeFreqBase⟩⟩
  have hprobe : probeFile (oneTensor [1] 0 0) = .ok info := by decide +kernel
  have hfind : findDescriptor (oneTensor [1] 0 0) [116] (fun _ => false) 1 0 24 =
      .ok ⟨[116], [1], 0, 0, 57⟩ := by decide +kernel
  obtain ⟨d, hd, hiff⟩ := getTensor_faithful_iff (by decide +kernel) hprobe
    (fun info h => by cases h) hget (show blockOf 0 = some (1, 4) from rfl)
  obtain rfl : (⟨[116], [1], 0, 0, 57⟩ : Descriptor) = d := by
    have := hfind.symm.trans hd
    simpa using this
  refine ⟨hget, info, _, hiff.mpr ⟨?_, by norm_num, by norm_num [exactByteSize], .inl ?_⟩⟩
  · simp
  · simp

/-- A dimension loses its high bits, the product of the dimensions wraps, and the end of the tensor
wraps with its offset. -/
theorem tensors_not_faithful :
    (∃ d t, findDescriptor (oneTensor [2 ^ 32 + 1] 0 0) [116] (fun _ => false) 1 0 24 = .ok d ∧
      getTensor none 0 (oneTensor [2 ^ 32 + 1] 0 0) [116] (fun _ => false) = .ok t ∧
      t.dims ≠ d.dims) ∧
    (∃ d t, findDescriptor (oneTensor [2 ^ 31, 2 ^ 31] 0 0) [116] (fun _ => false) 1 0 24 = .ok d ∧
      getTensor none 0 (oneTensor [2 ^ 31, 2 ^ 31] 0 0) [116] (fun _ => false) = .ok t ∧
      (oneTensor [2 ^ 31, 2 ^ 31] 0 0).size < exactByteSize (1, 4) t.dims) ∧
    ∃ d t, findDescriptor (oneTensor [1] 0 (2 ^ 64 - 64)) [116] (fun _ => false) 1 0 24 = .ok d ∧
      getTensor none 0 (oneTensor [1] 0 (2 ^ 64 - 64)) [116] (fun _ => false) = .ok t ∧
      t.offset ≠ d.offset := by
  refine ⟨⟨⟨[116], [2 ^ 32 + 1], 0, 0, 57⟩, ⟨[116], 0, [1], 0⟩, ?_⟩,
    ⟨⟨[116], [2 ^ 31, 2 ^ 31], 0, 0, 65⟩, ⟨[116], 0, [2 ^ 31, 2 ^ 31], 0⟩, ?_⟩,
    ⟨[116], [1], 0, 2 ^ 64 - 64, 57⟩, ⟨[116], 0, [1], 2 ^ 32 - 64⟩, ?_⟩ <;> decide +kernel

end MicroK.Gguf
