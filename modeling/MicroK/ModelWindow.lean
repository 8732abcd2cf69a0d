import MicroK.BootHandout
import MicroK.Fat32Listing

/-!
# The window of `fat32_find_model`

The model is read to a fixed address, whatever lies there.
-/

namespace MicroK.Boot

open Pmm Kheap Runs Fat32

/-- The byte belongs to the heap window, the bitmap, a module or a page that can be handed out. -/
def Occupied (info : BootInfo) (old : OldMemory) (a : ℕ) : Prop :=
  let l := boot info old
  (l.heapStart ≤ a ∧ a < l.heapStart + Kheap.heapSize) ∨
    (l.bitmapAddr ≤ a ∧ a < l.bitmapAddr + l.bitmapSize) ∨
    (∃ d ∈ info.modules, d.modStart.toNat ≤ a ∧ a < d.modEnd.toNat) ∨
    CanHandOut info old (a / pageSize)

/-- No volume makes `fat32_find_model` write to an occupied byte. -/
def ModelWindowSafe (info : BootInfo) (old : OldMemory) : Prop :=
  ∀ sector : Buf, (BootSector.ofBytes sector).accepted = true →
    ∀ (writable : Bool) (env : Env Buf) (w : World Buf) (j : ℕ),
      Writes (diskFs writable env (Mount.ofBootSector (BootSector.ofBytes sector))) w j →
        ¬ Occupied info old (modelStart + j)

/-- The 16 MiB from `0x2000000` on lie outside the heap window, the bitmap and the modules, and
every usable page in them is reserved. -/
def ModelWindowClear (info : BootInfo) (entries : List MmapEntry) : Prop :=
  ∀ a, modelStart ≤ a → a < modelStart + modelMax →
    ¬ (heapWindowStart info ≤ a ∧ a < heapWindowStart info + Kheap.heapSize) ∧
      ¬ (bitmapStart info ≤ a ∧ a < bitmapStart info + bitmapBytes info) ∧
      (∀ d ∈ info.modules, ¬ (d.modStart.toNat ≤ a ∧ a < d.modEnd.toNat)) ∧
      (Usable entries a → Reserved info (a / pageSize))

variable {info : BootInfo} {entries : List MmapEntry}

variable (hmap : info.mmap = some entries)
include hmap

/-- The memory size is a multiple of the page size as soon as there is usable memory below it. -/
theorem page_lt_of_usable {a : ℕ} (hu : Usable entries a)
    (ha : a < 0xFFFFF000) : a / pageSize < detectMemorySize info / pageSize := by
  have hlt := (usable_lt_detect_iff hmap hu).mpr ha
  obtain ⟨e, he, _, hin⟩ := hu
  have hhigh : e.baseHigh = 0 := by
    by_contra hne
    have hpos := toNat_pos_of_ne_zero hne
    have hle := hin.1
    unfold MmapEntry.base at hle
    omega
  have hpos := (lt_end32 hhigh hin).1.trans_le (end32_le_maxEnd he hhigh)
  have halign : detectMemorySize info % pageSize = 0 := by
    simp only [detectMemorySize, hmap, Option.getD_some, if_pos hpos]
    split_ifs
    · rfl
    · rw [alignUpWrap_eq, Nat.mul_mod_left]
  unfold pageSize at *
  omega

theorem free_window_iff (old : OldMemory) {b : ℕ} (hb : b < 2 ^ 16) : Free (boot info old) b ↔
      (∃ a, a / pageSize = b ∧ Usable entries a) ∧ ¬ Reserved info b := by
  rw [free_boot_iff hmap]
  constructor
  · rintro ⟨_, ⟨e, he, htouch⟩, hres⟩
    obtain ⟨htype, a, hab, hin, _⟩ := (touches_iff _ e b).mp htouch
    exact ⟨⟨a, hab, e, he, htype, hin⟩, hres⟩
  · rintro ⟨⟨a, rfl, hu⟩, hres⟩
    have ha : a < 0xFFFFF000 := by
      unfold pageSize at hb
      omega
    have hlt := (usable_lt_detect_iff hmap hu).mpr ha
    refine ⟨page_lt_of_usable hmap hu ha, ?_, hres⟩
    obtain ⟨e, he, htype, hin⟩ := hu
    exact ⟨e, he, (touches_iff _ e _).mpr ⟨htype, a, rfl, hin, hlt⟩⟩

theorem occupied_iff (old : OldMemory) {a : ℕ}
    (hlo : modelStart ≤ a) (hhi : a < modelStart + modelMax) : Occupied info old a ↔
      (heapWindowStart info ≤ a ∧ a < heapWindowStart info + heapSize) ∨
        (bitmapStart info ≤ a ∧ a < bitmapStart info + bitmapBytes info) ∨
        (∃ d ∈ info.modules, d.modStart.toNat ≤ a ∧ a < d.modEnd.toNat) ∨
        (∃ c, c / pageSize = a / pageSize ∧ Usable entries c) ∧ ¬ Reserved info (a / pageSize) := by
  have hpage : 1 ≤ a / pageSize ∧ a / pageSize < 2 ^ 16 := by
    unfold modelStart modelMax pageSize at *
    omega
  have hbitmap : (boot info old).bitmapAddr = bitmapStart info :=
    (boot_bitmapAddr info old).trans (alignUpWrap_eq _)
  have hsize : (boot info old).bitmapSize = bitmapBytes info := boot_bitmapSize info old
  have hheap : (boot info old).heapStart = heapWindowStart info :=
    (boot_heapStart info old).trans (heapBase_eq info)
  unfold Occupied
  dsimp only
  rw [hbitmap, hsize, hheap, canHandOut_iff info old hpage.1, free_window_iff hmap old hpage.2]

omit hmap

/-- No volume makes the load of the fallback model write to an occupied byte exactly when the window
at `0x2000000` is clear. -/
theorem model_window_safe_iff (entries : List MmapEntry) (memUpper : Option (BitVec 32))
    (mods : Option (List Module)) (kernelEnd : BitVec 32) (old : OldMemory) :
    let info : BootInfo := ⟨some entries, memUpper, mods, kernelEnd⟩
    ModelWindowSafe info old ↔ ModelWindowClear info entries := by
  intro info
  have hmap : info.mmap = some entries := rfl
  constructor
  · intro hsafe a hlo hhi
    have hfree : ¬ Occupied info old a := by
      have hj : a - modelStart < modelMax := by omega
      have hwrites := hsafe modelSector modelSector_accepted false plainEnv _ _
        (writes_modelDisk false hj)
      rwa [Nat.add_sub_cancel' hlo] at hwrites
    rw [occupied_iff hmap old hlo hhi, not_or, not_or, not_or] at hfree
    obtain ⟨hheap, hbitmap, hmods, hpages⟩ := hfree
    refine ⟨hheap, hbitmap, fun d hd hin => hmods ⟨d, hd, hin⟩, fun hu => ?_⟩
    by_contra hres
    exact hpages ⟨⟨a, rfl, hu⟩, hres⟩
  · intro hclear sector _ writable env w j hwrites hocc
    have hj : j < modelMax :=
      lt_of_writes _ (UInt8.toNat_lt (sector 13)) hwrites
    have hlo : modelStart ≤ modelStart + j := Nat.le_add_right _ _
    have hhi : modelStart + j < modelStart + modelMax := Nat.add_lt_add_left hj _
    obtain ⟨hheap, hbitmap, hmods, -⟩ := hclear _ hlo hhi
    rcases (occupied_iff hmap old hlo hhi).mp hocc with h | h | ⟨d, hd, h⟩ | ⟨⟨c, hc, hu⟩, hres⟩
    · exact hheap h
    · exact hbitmap h
    · exact hmods d hd h
    · have hwindow : modelStart ≤ c ∧ c < modelStart + modelMax := by
        unfold modelStart modelMax pageSize at *
        omega
      have hcres := (hclear c hwindow.1 hwindow.2).2.2.2 hu
      rw [hc] at hcres
      exact hres hcres

/-- The model of a volume is loaded into the middle of the heap of a machine with 64 MiB. -/
theorem model_written_into_heap :
    Writes (diskFs false plainEnv modelMount) (bootWorld modelDisk) 0 ∧
      Occupied smallInfo zeroMemory (modelStart + 0) := by
  refine ⟨writes_modelDisk false (by decide), ?_⟩
  apply (occupied_iff rfl zeroMemory (by decide) (by decide)).mpr
  exact .inl (by decide)

end MicroK.Boot
