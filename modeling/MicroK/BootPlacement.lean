import MicroK.BootReserved

/-!
# Where the bitmap and the heap are placed

The places of the bitmap and the heap follow from the ends of the modules alone, and nothing
compares them with the memory map. The detected memory size never cuts off usable memory below the
last page of the address space, so both lie in usable memory exactly when the map covers them.
-/

namespace MicroK.Boot

open Pmm Kheap Runs

variable {entries : List MmapEntry}

theorem end32_le_maxEnd {e : MmapEntry} (he : e ∈ entries) (hhigh : e.baseHigh = 0) :
    e.end32 ≤ maxEnd entries := by
  refine le_foldl_of_mem (fun m d => ?_) he (fun m => ?_) 0
  · split_ifs <;> omega
  · rw [if_neg (not_not.mpr hhigh)]
    split_ifs <;> omega

theorem lt_end32 {e : MmapEntry} (hhigh : e.baseHigh = 0) {a : ℕ} (hin : e.Contains a) :
    0 < e.end32 ∧ (a < 0xFFFFF000 → a < e.end32) := by
  have hbase : e.base = e.baseLow.toNat := by simp [MmapEntry.base, hhigh]
  obtain ⟨hle, hhi⟩ := hin
  unfold MmapEntry.end32 MmapEntry.length32
  dsimp only
  by_cases hh : e.lengthHigh = 0
  · have hlength : e.length = e.lengthLow.toNat := by simp [MmapEntry.length, hh]
    unfold u32
    split_ifs <;> omega
  · rw [if_pos hh]
    unfold u32
    split_ifs <;> omega

/-- The memory size cuts off usable memory only in the last page of the address space. -/
theorem usable_lt_detect_iff {info : BootInfo} (hmap : info.mmap = some entries) {a : ℕ}
    (hu : Usable entries a) : a < detectMemorySize info ↔ a < 0xFFFFF000 := by
  obtain ⟨e, he, _, hin⟩ := hu
  by_cases hhigh : e.baseHigh = 0
  · obtain ⟨hpos, hend⟩ := lt_end32 hhigh hin
    have hmax := end32_le_maxEnd he hhigh
    have halign := alignUpWrap_eq (maxEnd entries)
    simp only [detectMemorySize, hmap, Option.getD_some, if_pos (hpos.trans_le hmax)]
    split_ifs with hbig
    · rfl
    · rw [halign, u32_of_lt (by unfold pageSize; omega)]
      unfold pageSize
      omega
  · have hlt := detectMemorySize_lt info
    have hpos := toNat_pos_of_ne_zero hhigh
    have hbase : 2 ^ 32 ≤ a := by
      have hle := hin.1
      unfold MmapEntry.base at hle
      omega
    omega

def InsideRam (info : BootInfo) (entries : List MmapEntry) (start stop : ℕ) : Prop :=
  ∀ a, start ≤ a → a < stop → Usable entries a ∧ a < detectMemorySize info

/-- Every byte of the range is usable memory below the last page of the address space. -/
def Covered (entries : List MmapEntry) (start stop : ℕ) : Prop :=
  ∀ a, start ≤ a → a < stop → Usable entries a ∧ a < 0xFFFFF000

theorem insideRam_iff_covered {info : BootInfo} (hmap : info.mmap = some entries) (start stop : ℕ) :
    InsideRam info entries start stop ↔ Covered entries start stop := by
  refine forall_congr' fun a => forall_congr' fun _ => forall_congr' fun _ => ?_
  exact and_congr_right fun hu => usable_lt_detect_iff hmap hu

def bitmapStart (info : BootInfo) : ℕ :=
  u32 (reservedEnd info + (pageSize - 1)) / pageSize * pageSize

def bitmapBytes (info : BootInfo) : ℕ := (detectMemorySize info / pageSize + 31) / 32 * 4

def heapWindowStart (info : BootInfo) : ℕ :=
  u32 (max (u32 (bitmapStart info + bitmapBytes info)) Kheap.heapMinStart + (pageSize - 1)) /
    pageSize * pageSize

theorem heapBase_eq (info : BootInfo) : heapBase info = heapWindowStart info := by
  have hlow : (lowEnd info).toNat = u32 (bitmapStart info + bitmapBytes info) := by
    rw [lowEnd, BitVec.toNat_ofNat, reserveKernelAndModules, alignUpWrap_eq]
    rfl
  rw [heapBase, heapWindowStart, ← hlow, alignedStart]
  have halign : heapAlign = pageSize := rfl
  rw [halign]
  have hmin : heapMinStart = 0xC00000 := rfl
  split_ifs with hfit
  · rw [u32_of_lt hfit]
  · unfold u32 pageSize at *
    omega

/-- The bitmap and the heap window lie in usable memory exactly when the map covers the places that
follow from the ends of the modules. -/
theorem placed_inside_ram_iff (entries : List MmapEntry) (memUpper : Option (BitVec 32))
    (mods : Option (List Module)) (kernelEnd : BitVec 32) (old : OldMemory) :
    let info : BootInfo := ⟨some entries, memUpper, mods, kernelEnd⟩
    let l := boot info old
    (InsideRam info entries l.bitmapAddr (l.bitmapAddr + l.bitmapSize) ∧
        InsideRam info entries l.heapStart (l.heapStart + Kheap.heapSize)) ↔
      Covered entries (bitmapStart info) (bitmapStart info + bitmapBytes info) ∧
        Covered entries (heapWindowStart info) (heapWindowStart info + Kheap.heapSize) := by
  intro info l
  have hbitmap : l.bitmapAddr = bitmapStart info :=
    (boot_bitmapAddr info old).trans (alignUpWrap_eq _)
  have hsize : l.bitmapSize = bitmapBytes info := boot_bitmapSize info old
  have hheap : l.heapStart = heapWindowStart info :=
    (boot_heapStart info old).trans (heapBase_eq info)
  rw [hbitmap, hsize, hheap, insideRam_iff_covered rfl, insideRam_iff_covered rfl]

def tinyInfo : BootInfo :=
  ⟨some [⟨0, 0, 0x9FC00, 0, 1⟩, ⟨0x100000, 0, 0xF00000, 0, 1⟩], none, none, 0x200000⟩

/-- Its heap window reaches from 12 to 44 MiB. -/
theorem heap_behind_memory :
    (boot tinyInfo zeroMemory).heapStart = 0xC00000 ∧ detectMemorySize tinyInfo = 0x1000000 ∧
      ¬ InsideRam tinyInfo [⟨0, 0, 0x9FC00, 0, 1⟩, ⟨0x100000, 0, 0xF00000, 0, 1⟩]
        (boot tinyInfo zeroMemory).heapStart
        ((boot tinyInfo zeroMemory).heapStart + Kheap.heapSize) := by
  have hheap : (boot tinyInfo zeroMemory).heapStart = 0xC00000 := by
    rw [boot_heapStart]
    decide
  have hmem : detectMemorySize tinyInfo = 0x1000000 := by decide
  refine ⟨hheap, hmem, fun hinside => ?_⟩
  rw [hheap] at hinside
  have hbyte := (hinside 0x1000000 (by norm_num) (by decide)).2
  exact absurd hbyte (lt_irrefl _)

end MicroK.Boot
