import MicroK.GgufExtent

/-!
# Where the requested bytes of a tensor lie

The check of a descriptor bounds the tensor when it is found, and the reads that follow are made
with 32-bit offsets. This module says which descriptors make every read of a tensor, and every read
of its rows, stay in the data section.
-/

namespace MicroK.Gguf

open Outcome List Option Nat

theorem foldl_createStep_none (dims : List ℕ) : dims.foldl createStep none = none := by
  induction dims with
  | nil => rfl
  | cons dim dims ih => exact ih

theorem foldl_createStep (dims : List ℕ) : ∀ a c, a < 2 ^ 32 →
    dims.foldl createStep (some a) = some c → c = a * dims.prod ∧ c < 2 ^ 32 := by
  induction dims with
  | nil =>
    intro a c ha h
    obtain rfl : a = c := Option.some.inj h
    exact ⟨by simp, ha⟩
  | cons dim dims ih =>
    intro a c ha h
    rw [foldl_cons, createStep, bind_some] at h
    split_ifs at h with hover
    · rw [foldl_createStep_none] at h
      cases h
    · have hfit : a * dim < 2 ^ 32 := by
        rcases Nat.eq_zero_or_pos dim with rfl | hpos
        · norm_num
        · have hle : a ≤ 0xFFFFFFFF / dim := not_lt.mp fun hlt => hover ⟨hpos, hlt⟩
          have := (Nat.le_div_iff_mul_le hpos).mp hle
          omega
      obtain ⟨hc, hlt⟩ := ih _ c (u32_lt _) h
      rw [u32_of_lt hfit] at hc
      exact ⟨by rw [hc, prod_cons, mul_assoc], hlt⟩

variable {dims : List ℕ} {type : ℕ}

theorem createCount_eq {count : ℕ} (h : createCount dims = some count) :
    count = dims.prod ∧ 0 < count ∧ count < 2 ^ 32 := by
  obtain ⟨hfold, hpos⟩ := filter_eq_some_iff.mp h
  obtain ⟨hprod, hlt⟩ := foldl_createStep dims 1 count (by norm_num) hfold
  exact ⟨by rw [hprod, one_mul], pos_of_ne_zero (of_decide_eq_true hpos), hlt⟩

theorem loadBytes_eq (type count : ℕ) :
    loadBytes type count = (blockOf type).map fun block => u32 (count / block.1 * block.2) := by
  unfold loadBytes blockOf
  split_ifs <;> simp

theorem rowBytes_eq (type width : ℕ) :
    rowBytes type width = (blockOf type).bind fun block =>
      if block.1 ∣ width then some (u32 (width / block.1 * block.2)) else none := by
  unfold rowBytes blockOf
  split_ifs <;> simp_all [dvd_iff_mod_eq_zero, mod_one]

variable {block : ℕ × ℕ}

theorem exactByteSize_eq (hpos : 0 < block.1) (hrows : block.1 ∣ dims.headD 0) :
    exactByteSize block dims = dims.tail.prod * (dims.headD 0 / block.1) * block.2 := by
  obtain ⟨k, hk⟩ := hrows
  rw [exactByteSize, hk, Nat.mul_div_cancel_left _ hpos, Nat.mul_add_div hpos,
    Nat.div_eq_of_lt (Nat.sub_lt hpos one_pos), Nat.add_zero]

theorem block_cases (h : blockOf type = some block) :
    block = (1, 4) ∨ block = (1, 2) ∨ block = (32, 18) ∨ block = (256, 210) := by
  rcases blockOf_cases h with h | h | h | h <;> simp [h.2]

theorem block_pos (h : blockOf type = some block) : 0 < block.1 := by
  rcases block_cases h with rfl | rfl | rfl | rfl <;> norm_num

theorem blocks_lt {n : ℕ} {block : ℕ × ℕ} (h : blockOf type = some block) (hn : n < 2 ^ 32)
    (hone : block.1 ≠ 1) : n / block.1 * block.2 < 2 ^ 32 := by
  rcases block_cases h with rfl | rfl | rfl | rfl
  · exact absurd rfl hone
  · exact absurd rfl hone
  · dsimp only
    omega
  · dsimp only
    omega

theorem blocks_lt_u64 {n : ℕ} {block : ℕ × ℕ} (h : blockOf type = some block) (hn : n < 2 ^ 32) :
    n / block.1 * block.2 < 2 ^ 64 := by
  rcases block_cases h with rfl | rfl | rfl | rfl <;> dsimp only <;> omega

section

variable {f : Image} {info : Info} {d : Descriptor} {t : Tensor} {block : ℕ × ℕ}

variable (hsize : f.size < 2 ^ 32)
include hsize

/-- An offset of more than 32 bits passes the check only by wrapping, and its lower half then lies
beyond the file. -/
theorem offset_lt_of_inside (hoffset : d.offset < 2 ^ 64)
    (ht : checkDescriptor f info d = .ok t) (h : info.dataOffset + u32 d.offset ≤ f.size) :
    d.offset < 2 ^ 32 := by
  have hstart := (checkDescriptor_ok ht).2.1
  by_contra hbig
  unfold u32 at h
  unfold u64 at hstart
  omega

theorem start_inside (hdata : info.dataOffset ≤ f.size)
    (ht : checkDescriptor f info d = .ok t) (hoffset : d.offset < 2 ^ 32) :
    info.dataOffset + d.offset ≤ f.size := by
  have hstart := (checkDescriptor_ok ht).2.1
  rwa [u64_of_lt (by omega)] at hstart

/-- The check bounds the size of a tensor of whole blocks, up to multiples of 2 to the 64. -/
theorem size_inside (hdata : info.dataOffset ≤ f.size)
    (ht : checkDescriptor f info d = .ok t) (hoffset : d.offset < 2 ^ 32)
    (hblock : blockOf d.type = some block) (hrows : block.1 ∣ (d.dims.map u32).headD 0) :
    info.dataOffset + d.offset + u64 (exactByteSize block (d.dims.map u32)) ≤ f.size := by
  have hstart := start_inside hsize hdata ht hoffset
  by_cases hzero : (d.dims.map u32).headD 0 = 0
  · have hempty : exactByteSize block (d.dims.map u32) = 0 := by
      rw [exactByteSize_eq (block_pos hblock) hrows, hzero, Nat.zero_div, mul_zero, zero_mul]
    rw [hempty, u64_of_lt (by norm_num)]
    exact hstart
  · have hextent := (checkDescriptor_ok ht).2.2 _ (tensorByteSize_eq hblock hrows hzero)
    rw [u64_of_lt (by omega : info.dataOffset + d.offset < 2 ^ 64)] at hextent
    omega

end

/-- The descriptors of which `tensor_load_gguf` reads only bytes of the data section. -/
def LoadFits (f : Image) (info : Info) (d : Descriptor) : Prop :=
  ∀ count block, createCount (d.dims.map u32) = some count → blockOf d.type = some block →
    kmallocOk true (u32 (count * 4)) → kmallocOk true (u32 (count / block.1 * block.2)) →
    d.offset < 2 ^ 32 ∧ (block.1 ∣ (d.dims.map u32).headD 0 ∨
      info.dataOffset + d.offset + count / block.1 * block.2 ≤ f.size)

section

variable {f : Image} {info : Info} {d : Descriptor} {t : Tensor} {cache : Option ProbeCache}
  {start : ℕ} {name : List UInt8} {abort : ℕ → Bool}

theorem kmallocOk_true {heap : Bool} {size : ℕ} (h : kmallocOk heap size) : kmallocOk true size :=
  (Bool.and_eq_true _ _ ▸ h).2

theorem loadRequest_eq_ok (hget : getTensor cache start f name abort = .ok t) {heap : ℕ → Bool}
    {r : Request} :
    loadRequest heap cache start f name abort = .ok r ↔
      heap 0 = true ∧ ∃ count block,
        createCount t.dims = some count ∧ blockOf t.type = some block ∧
          kmallocOk (heap 1) (u32 (count * 4)) ∧
          kmallocOk (heap 2) (u32 (count / block.1 * block.2)) ∧
          r = ⟨t.offset, u32 (count / block.1 * block.2)⟩ := by
  rw [loadRequest, hget, ok_bind]
  cases hcount : createCount t.dims with
  | none => simp
  | some count =>
    simp only [loadBytes_eq]
    cases hblock : blockOf t.type with
    | none => simp
    | some block =>
      simp only [Option.some.injEq, exists_eq_left', exists_and_left, Option.map_some]
      generalize kmallocOk (heap 1) (u32 (count * 4)) = values
      generalize kmallocOk (heap 2) (u32 (count / block.1 * block.2)) = bytes
      cases heap 0 <;> cases values <;> cases bytes <;> simp [eq_comm]

theorem blocks_eq_exactByteSize (hpos : 0 < block.1)
    (hrows : block.1 ∣ dims.headD 0) (hne : dims ≠ []) :
    dims.prod / block.1 * block.2 = exactByteSize block dims := by
  obtain ⟨dim, rest, rfl⟩ := exists_cons_of_ne_nil hne
  rw [exactByteSize_eq hpos hrows]
  simp only [headD_cons, tail_cons, prod_cons] at hrows ⊢
  rw [Nat.mul_comm dim, Nat.mul_div_assoc _ hrows]

theorem load_inside_iff (hsize : f.size < 2 ^ 32) (hdata : info.dataOffset ≤ f.size)
    (hdims : d.dims ≠ []) (hoffset : d.offset < 2 ^ 64) (ht : checkDescriptor f info d = .ok t)
    (hget : getTensor cache start f name abort = .ok t) :
    (∀ heap r, loadRequest heap cache start f name abort = .ok r → r.Inside f info) ↔
      LoadFits f info d := by
  obtain ⟨rfl, -, -⟩ := checkDescriptor_ok ht
  constructor
  · intro h count block hcount hblock hvalues hbytes
    have hinside : info.dataOffset + u32 d.offset + u32 (count / block.1 * block.2) ≤ f.size :=
      h (fun _ => true) _ ((loadRequest_eq_ok hget).mpr
        ⟨rfl, count, block, hcount, hblock, hvalues, hbytes, rfl⟩)
    have hlow := offset_lt_of_inside hsize hoffset ht (by omega)
    refine ⟨hlow, or_iff_not_imp_left.mpr fun hpart => ?_⟩
    have hone : block.1 ≠ 1 := fun hone => hpart (hone ▸ one_dvd _)
    rwa [u32_of_lt hlow, u32_of_lt (blocks_lt hblock (createCount_eq hcount).2.2 hone)] at hinside
  · rintro h heap r hr
    obtain ⟨-, count, block, hcount, hblock, hvalues, hbytes, rfl⟩ :=
      (loadRequest_eq_ok hget).mp hr
    obtain ⟨hlow, hfit⟩ := h count block hcount hblock (kmallocOk_true hvalues)
      (kmallocOk_true hbytes)
    have hcut : u32 (count / block.1 * block.2) ≤ count / block.1 * block.2 := mod_le _ _
    change info.dataOffset + u32 d.offset + u32 (count / block.1 * block.2) ≤ f.size
    rw [u32_of_lt hlow]
    rcases hfit with hrows | hfit
    · obtain ⟨hprod, hpos, hlt⟩ := createCount_eq hcount
      have hne : d.dims.map u32 ≠ [] := fun hnil => hdims (map_eq_nil_iff.mp hnil)
      have hexact := blocks_eq_exactByteSize (block_pos hblock) hrows hne
      have hinside := size_inside hsize hdata ht hlow hblock hrows
      rw [← hexact, ← hprod, u64_of_lt (blocks_lt_u64 hblock hlt)] at hinside
      omega
    · omega

end

/-- The descriptors of which `tensor_read_gguf_row_into` reads only bytes of the data section. A row
of 4 GiB or more has its length cut to 32 bits. -/
def RowsFit (f : Image) (info : Info) (d : Descriptor) : Prop :=
  ∀ width rows block, d.dims.map u32 = [width, rows] → blockOf d.type = some block →
    block.1 ∣ width → 0 < rows → d.offset < 2 ^ 32 ∧
      (width / block.1 * block.2 < 2 ^ 32 ∨ ∀ i < rows,
        info.dataOffset + u32 (d.offset + u32 (i * u32 (width / block.1 * block.2))) +
          u32 (width / block.1 * block.2) ≤ f.size)

section

variable {f : Image} {info : Info} {d : Descriptor} {t : Tensor} {cache : Option ProbeCache}
  {start : ℕ} {name : List UInt8} {abort : ℕ → Bool}

theorem rowRequest_eq_ok (hprobe : probe cache start f = .ok info)
    (hget : getTensor cache start f name abort = .ok t) {scratch : Bool} {rowIndex outCount : ℕ}
    {r : Request} :
    rowRequest scratch cache start f name abort rowIndex outCount = .ok r ↔
      scratch = true ∧ ∃ width rows block, t.dims = [width, rows] ∧ rowIndex < rows ∧
        width ≤ outCount ∧ blockOf t.type = some block ∧ block.1 ∣ width ∧
          r = ⟨u32 (t.offset + u32 (rowIndex * u32 (width / block.1 * block.2))),
            u32 (width / block.1 * block.2)⟩ := by
  rw [rowRequest, hget, ok_bind, hprobe, ok_bind]
  constructor
  · intro h
    split at h
    · next width rows hdims =>
      split_ifs at h with hrow hout hscratch
      · rw [rowBytes_eq] at h
        split at h
        · cases h
        · next len hlen =>
          cases h
          obtain ⟨block, hblock, hlen⟩ := bind_eq_some_iff.mp hlen
          obtain ⟨hdvd, hlen⟩ := ite_none_right_eq_some.mp hlen
          cases hlen
          exact ⟨hscratch, width, rows, block, hdims, not_le.mp hrow, not_lt.mp hout, hblock, hdvd,
            rfl⟩
      · split at h <;> cases h
    · cases h
  · rintro ⟨rfl, width, rows, block, hdims, hrow, hout, hblock, hdvd, rfl⟩
    rw [hdims]
    dsimp only
    rw [if_neg (not_le.mpr hrow), if_neg (not_lt.mpr hout), rowBytes_eq, hblock, bind_some,
      if_pos hdvd]
    rfl

theorem row_inside {width rows rowIndex : ℕ} {block : ℕ × ℕ} (hsize : f.size < 2 ^ 32)
    (hdata : info.dataOffset ≤ f.size) (ht : checkDescriptor f info d = .ok t)
    (hlow : d.offset < 2 ^ 32) (hdims : d.dims.map u32 = [width, rows])
    (hblock : blockOf d.type = some block) (hdvd : block.1 ∣ width)
    (hshort : width / block.1 * block.2 < 2 ^ 32) (hrow : rowIndex < rows) :
    info.dataOffset + d.offset + (rowIndex + 1) * (width / block.1 * block.2) ≤ f.size := by
  have hhead : block.1 ∣ (d.dims.map u32).headD 0 := by rwa [hdims]
  have hwhole := size_inside hsize hdata ht hlow hblock hhead
  rw [exactByteSize_eq (block_pos hblock) hhead, hdims, headD_cons, tail_cons,
    prod_singleton, mul_assoc] at hwhole
  have hrows : rows < 2 ^ 32 := by
    have hmem : rows ∈ d.dims.map u32 := by rw [hdims]; simp
    obtain ⟨dim, -, rfl⟩ := mem_map.mp hmem
    exact u32_lt dim
  generalize width / block.1 * block.2 = len at hshort hwhole ⊢
  have hprod : rows * len < 2 ^ 64 := by nlinarith
  rw [u64_of_lt hprod] at hwhole
  have hstep : (rowIndex + 1) * len ≤ rows * len := mul_le_mul_right _ hrow
  omega

theorem row_inside_iff (hsize : f.size < 2 ^ 32) (hdata : info.dataOffset ≤ f.size)
    (hoffset : d.offset < 2 ^ 64) (ht : checkDescriptor f info d = .ok t)
    (hprobe : probe cache start f = .ok info) (hget : getTensor cache start f name abort = .ok t) :
    (∀ scratch rowIndex outCount r,
      rowRequest scratch cache start f name abort rowIndex outCount = .ok r → r.Inside f info) ↔
      RowsFit f info d := by
  obtain ⟨rfl, -, -⟩ := checkDescriptor_ok ht
  constructor
  · intro h width rows block hdims hblock hdvd hrows
    have hinside (i : ℕ) (hi : i < rows) :
        info.dataOffset + u32 (u32 d.offset + u32 (i * u32 (width / block.1 * block.2))) +
          u32 (width / block.1 * block.2) ≤ f.size :=
      h true i width _ ((rowRequest_eq_ok hprobe hget).mpr
        ⟨rfl, width, rows, block, hdims, hi, le_rfl, hblock, hdvd, rfl⟩)
    have hzero := hinside 0 hrows
    rw [zero_mul, u32_of_lt (by norm_num : 0 < 2 ^ 32), add_zero,
      u32_of_lt (u32_lt _)] at hzero
    have hlow := offset_lt_of_inside hsize hoffset ht (by omega)
    rw [u32_of_lt hlow] at hinside
    exact ⟨hlow, .inr hinside⟩
  · rintro h scratch rowIndex outCount r hr
    obtain ⟨-, width, rows, block, hdims, hrow, -, hblock, hdvd, rfl⟩ :=
      (rowRequest_eq_ok hprobe hget).mp hr
    obtain ⟨hlow, hfit⟩ := h width rows block hdims hblock hdvd (by omega)
    change info.dataOffset + u32 (u32 d.offset + _) + u32 (width / block.1 * block.2) ≤ f.size
    rw [u32_of_lt hlow]
    rcases hfit with hshort | hinside
    · have hshort_row := row_inside hsize hdata ht hlow hdims hblock hdvd hshort hrow
      rw [succ_mul] at hshort_row
      rw [u32_of_lt hshort, u32_of_lt (by omega : rowIndex * _ < 2 ^ 32), u32_of_lt (by omega)]
      omega
    · exact hinside rowIndex hrow

end

end MicroK.Gguf
