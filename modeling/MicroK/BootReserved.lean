import MicroK.HighPoolRegions

/-!
# The reserved pages after boot

What the kernel, the modules, the bitmap and the heap occupy must never be handed out by the page
allocators, as long as only pages that they handed out are freed. A run keeps pages in use that are
in use at boot. All of the protected pages but those of the heap window lie below the end of the
bitmap, which is reserved as one piece.
-/

namespace MicroK.Boot

open Pmm List Nat

theorem alignUpWrap_eq (value : ℕ) :
    alignUpWrap value = u32 (value + (pageSize - 1)) / pageSize * pageSize :=
  and_high_mask (k := 12) (u32_lt _) (by norm_num)

variable (info : BootInfo)

theorem detectMemorySize_lt : detectMemorySize info < 0xFFFFFFFF := by
  have halign := alignUpWrap_eq (maxEnd (info.mmap.getD []))
  have hwrap := u32_lt (maxEnd (info.mmap.getD []) + (pageSize - 1))
  unfold detectMemorySize
  dsimp only
  split_ifs
  · norm_num
  · rw [halign]
    unfold pageSize at hwrap ⊢
    omega
  · cases info.memUpper with
    | none => norm_num
    | some upper =>
      dsimp only
      unfold u32
      omega

variable (info : BootInfo)

def lowEnd : BitVec 32 :=
  BitVec.ofNat 32
    (reserveKernelAndModules info + bitmapWords (detectMemorySize info / pageSize) * 4)

def heapBase : ℕ :=
  if max (lowEnd info).toNat Kheap.heapMinStart + (Kheap.heapAlign - 1) < 2 ^ 32
  then Kheap.alignedStart (lowEnd info) else 0

def Reserved (b : ℕ) : Prop :=
  InRegion 0 (lowEnd info) b ∨
    (∃ d ∈ info.modules, InRegion d.modStart (d.modEnd - d.modStart) b) ∨
    InRegion (BitVec.ofNat 32 (heapBase info)) (BitVec.ofNat 32 Kheap.heapSize) b

instance (info : BootInfo) (b : ℕ) : Decidable (Reserved info b) :=
  inferInstanceAs (Decidable (_ ∨ _))

def Free (l : Layout) (b : ℕ) : Prop := b < l.pmm.maxBlocks ∧ l.pmm.isSet b = false

@[simp] theorem init_maxBlocks (mem : ℕ → BitVec 32) :
    (init (BitVec.ofNat 32 (detectMemorySize info)) mem).maxBlocks =
      detectMemorySize info / pageSize := by
  have hlt := detectMemorySize_lt info
  have hmod : detectMemorySize info % 2 ^ 32 = detectMemorySize info :=
    mod_eq_of_lt (by omega)
  simp only [init, BitVec.toNat_ofNat, hmod]

@[simp] theorem freeUsableMemory_maxBlocks (memSize : ℕ) (s : State) :
    (freeUsableMemory info memSize s).maxBlocks = s.maxBlocks := by
  unfold freeUsableMemory
  cases info.mmap with
  | none =>
    split_ifs <;> simp
  | some entries =>
    dsimp only
    induction entries generalizing s with
    | nil => rfl
    | cons e entries ih => rw [foldl_cons, ih, freeEntry_maxBlocks]

@[simp] theorem reserveMultibootModules_maxBlocks (s : State) :
    (reserveMultibootModules info s).maxBlocks = s.maxBlocks := by
  unfold reserveMultibootModules
  induction info.modules generalizing s with
  | nil => rfl
  | cons d ds ih => rw [foldl_cons, ih, reserveModule, reserveRegion_maxBlocks]

theorem wellCounted_freeUsableMemory (memSize : ℕ) {s : State}
    (h : WellCounted s) : WellCounted (freeUsableMemory info memSize s) := by
  unfold freeUsableMemory
  cases info.mmap with
  | none =>
    split_ifs
    · exact wellCounted_unsetBlocks h _ _
    · exact h
  | some entries =>
    induction entries generalizing s with
    | nil => exact h
    | cons e entries ih =>
      apply ih
      rcases freeEntry_cases memSize s e with heq | ⟨size, heq⟩
      · rw [heq]
        exact h
      · rw [heq]
        exact wellCounted_unsetBlocks h _ _

theorem wellCounted_reserveMultibootModules {s : State} (h : WellCounted s) :
    WellCounted (reserveMultibootModules info s) := by
  unfold reserveMultibootModules
  induction info.modules generalizing s with
  | nil => exact h
  | cons d ds ih => exact ih (wellCounted_setBlocks h _ _)

variable (old : OldMemory)

def usableState : State :=
  freeUsableMemory info (detectMemorySize info)
    (init (BitVec.ofNat 32 (detectMemorySize info)) old.bitmap)

variable (old : OldMemory)

theorem boot_eq :
    boot info old =
      { memSize := detectMemorySize info
        bitmapAddr := reserveKernelAndModules info
        heapStart := heapBase info
        pmm := reserveRegion (reserveMultibootModules info
          (reserveRegion (usableState info old) 0 (lowEnd info)))
          (BitVec.ofNat 32 (heapBase info)) (BitVec.ofNat 32 Kheap.heapSize) } := by
  have hlow : BitVec.ofNat 32 (reserveKernelAndModules info +
      getBitmapSize (usableState info old)) = lowEnd info := by
    simp only [lowEnd, getBitmapSize, usableState, freeUsableMemory_maxBlocks, init_maxBlocks]
  have hheap : (Kheap.init (lowEnd info) old.heap).physStart = heapBase info :=
    Kheap.init_physStart (lowEnd info) old.heap
  have hboot : boot info old =
      { memSize := detectMemorySize info
        bitmapAddr := reserveKernelAndModules info
        heapStart := (Kheap.init (BitVec.ofNat 32 (reserveKernelAndModules info +
          getBitmapSize (usableState info old))) old.heap).physStart
        pmm := reserveRegion (reserveMultibootModules info
          (reserveRegion (usableState info old) 0 (BitVec.ofNat 32
            (reserveKernelAndModules info + getBitmapSize (usableState info old)))))
          (BitVec.ofNat 32 (Kheap.init (BitVec.ofNat 32 (reserveKernelAndModules info +
            getBitmapSize (usableState info old))) old.heap).physStart)
          (BitVec.ofNat 32 Kheap.heapSize) } := rfl
  rw [hboot, hlow, hheap]

theorem boot_maxBlocks : (boot info old).pmm.maxBlocks = detectMemorySize info / pageSize := by
  simp [boot_eq, usableState]

variable {b : ℕ}

theorem isSet_freeEntries {memSize : ℕ} (hmem : memSize < 0xFFFFFFFF) (entries : List MmapEntry)
    (s : State) (hb : b < s.maxBlocks) (hlast : b < 2 ^ 20 - 1) :
    (entries.foldl (freeEntry memSize) s).isSet b =
      (s.isSet b && !decide (∃ e ∈ entries, Touches memSize e b)) := by
  induction entries generalizing s with
  | nil => simp
  | cons e entries ih =>
    rw [foldl_cons, ih (freeEntry memSize s e) (by simpa using hb),
      isSet_freeEntry hmem s e hb hlast, Bool.and_assoc, ← Bool.not_or, ← Bool.decide_or]
    simp only [mem_cons, exists_eq_or_imp]

theorem isSet_reserveModules (modules : List Module) (s : State) (hb : b < s.maxBlocks) :
    (modules.foldl reserveModule s).isSet b =
      (s.isSet b || decide (∃ d ∈ modules, InRegion d.modStart (d.modEnd - d.modStart) b)) := by
  induction modules generalizing s with
  | nil => simp
  | cons d ds ih =>
    rw [foldl_cons, ih (reserveModule s d) (by simpa [reserveModule] using hb),
      reserveModule, isSet_reserveRegion, Bool.or_assoc, ← Bool.decide_or]
    simp only [mem_cons, exists_eq_or_imp, hb, and_true]

theorem isSet_boot (hb : b < detectMemorySize info / pageSize) :
    (boot info old).pmm.isSet b = ((usableState info old).isSet b || decide (Reserved info b)) := by
  have hmax : (usableState info old).maxBlocks = detectMemorySize info / pageSize := by
    simp [usableState]
  rw [boot_eq]
  simp only [isSet_reserveRegion, reserveMultibootModules_maxBlocks, reserveRegion_maxBlocks, hmax,
    hb, and_true]
  rw [reserveMultibootModules, isSet_reserveModules _ _ (by simpa [hmax] using hb),
    isSet_reserveRegion, hmax]
  rw [Bool.eq_iff_iff]
  simp only [hb, and_true, Bool.or_eq_true, decide_eq_true_iff, or_assoc]
  rfl

theorem lt_last_page {info : BootInfo} (hb : b < detectMemorySize info / pageSize) :
    b < 2 ^ 20 - 1 := by
  have hlt := detectMemorySize_lt info
  unfold pageSize at hb
  omega

/-- The pages left free at boot are those that a usable range touches and no reservation covers. -/
theorem free_boot_iff {info : BootInfo} {entries : List MmapEntry} (hmap : info.mmap = some entries)
    (old : OldMemory) (b : ℕ) :
    Free (boot info old) b ↔
      b < detectMemorySize info / pageSize ∧
        (∃ e ∈ entries, Touches (detectMemorySize info) e b) ∧ ¬ Reserved info b := by
  rw [Free, boot_maxBlocks]
  refine and_congr_right fun hb => ?_
  have hinit : (init (BitVec.ofNat 32 (detectMemorySize info)) old.bitmap).isSet b = true :=
    isSet_init _ _ (by simpa using hb)
  have husable : (usableState info old).isSet b =
      !decide (∃ e ∈ entries, Touches (detectMemorySize info) e b) := by
    simp only [usableState, freeUsableMemory, hmap]
    rw [isSet_freeEntries (detectMemorySize_lt info) entries _ (by simpa using hb)
      (lt_last_page hb), hinit, Bool.true_and]
  rw [isSet_boot info old hb, husable, Bool.or_eq_false_iff, Bool.not_eq_false', decide_eq_true_iff,
    decide_eq_false_iff_not]

/-- Every byte of the page is reported usable, and none is reported with another type. -/
def WhollyUsable (entries : List MmapEntry) (b : ℕ) : Prop :=
  ∀ a, a / pageSize = b → Usable entries a ∧ ∀ e ∈ entries, e.Contains a → e.type = 1

/-- Every free page is wholly usable memory exactly when the map has no usable byte, below the
memory size and outside the reserved pages, whose page is not wholly usable. -/
theorem free_wholly_usable_iff (entries : List MmapEntry) (memUpper : Option (BitVec 32))
    (mods : Option (List Module)) (kernelEnd : BitVec 32) (old : OldMemory) :
    let info : BootInfo := ⟨some entries, memUpper, mods, kernelEnd⟩
    (∀ b, Free (boot info old) b → WhollyUsable entries b) ↔
      ∀ a, Usable entries a → a / pageSize < detectMemorySize info / pageSize →
        ¬ Reserved info (a / pageSize) → WhollyUsable entries (a / pageSize) := by
  intro info
  constructor
  · rintro h a ⟨e, he, htype, hin⟩ hlt hres
    have hsize : a < detectMemorySize info := by
      unfold pageSize at hlt
      omega
    have htouch := (touches_iff (detectMemorySize info) e _).mpr ⟨htype, a, rfl, hin, hsize⟩
    exact h _ ((free_boot_iff rfl old _).mpr ⟨hlt, ⟨e, he, htouch⟩, hres⟩)
  · intro h b hfree
    obtain ⟨hlt, ⟨e, he, htouch⟩, hres⟩ := (free_boot_iff rfl old b).mp hfree
    obtain ⟨htype, a, rfl, hin, _⟩ := (touches_iff (detectMemorySize info) e _).mp htouch
    exact h a ⟨e, he, htype, hin⟩ hlt hres

def unalignedMap : List MmapEntry :=
  [⟨0, 0, 0x9FC00, 0, 1⟩, ⟨0x100000, 0, 0x3EFF800, 0, 1⟩, ⟨0x3FFF800, 0, 0x800, 0, 2⟩]

def unalignedInfo : BootInfo := ⟨some unalignedMap, none, none, 0x200000⟩

def zeroMemory : OldMemory := ⟨fun _ => 0, fun _ => 0⟩

/-- The page that holds the firmware's 2 KiB is left free. -/
theorem free_page_of_firmware :
    Free (boot unalignedInfo zeroMemory) 0x3FFF ∧ ¬ WhollyUsable unalignedMap 0x3FFF := by
  constructor
  · exact (free_boot_iff rfl zeroMemory _).mpr (by decide)
  · intro h
    have htype := (h 0x3FFF800 (by decide)).2 ⟨0x3FFF800, 0, 0x800, 0, 2⟩ (by decide) (by decide)
    exact absurd htype (by decide)

def kernelStart : ℕ := 0x100000

def Overlaps (start stop b : ℕ) : Prop := ∃ a, start ≤ a ∧ a < stop ∧ a / pageSize = b

def Protected (l : Layout) (b : ℕ) : Prop :=
  Overlaps kernelStart info.kernelEnd.toNat b ∨
    (∃ d ∈ info.modules, Overlaps d.modStart.toNat d.modEnd.toNat b) ∨
    Overlaps l.bitmapAddr (l.bitmapAddr + l.bitmapSize) b ∨
    Overlaps l.heapStart (l.heapStart + Kheap.heapSize) b

/-- The allocators with the set of pages that they have handed out so far. -/
structure Machine where
  low : State
  high : HighPool.Pool
  got : Finset ℕ

inductive Call where
  | pmm (op : Op)
  | initHigh

variable (m : Machine)

def Machine.lowOp : Call → Option Op
  | .pmm op => some op
  | .initHigh =>
    if m.high.bits.maxBlocks = 0 then none
    else some (.allocRegion (HighPool.highBitmapRegion m.high.bits.maxBlocks))

def Machine.handed (c : Call) : Finset ℕ := (m.lowOp c).elim ∅ (handedOut m.low)

def Machine.step (c : Call) : Machine :=
  match c with
  | .pmm op => ⟨Pmm.step m.low op, m.high, m.got ∪ m.handed c⟩
  | .initHigh =>
    ⟨(HighPool.initHigh m.high m.low).2, (HighPool.initHigh m.high m.low).1, m.got ∪ m.handed c⟩

/-- A freeing call releases only pages that an allocator has handed out. -/
def OwnPages (c : Call) : Prop :=
  ∀ op ∈ m.lowOp c, ∀ b, Covers op b → b ∈ m.got

def afterBoot : Machine :=
  ⟨(boot info old).pmm, HighPool.record old.bitmap (info.mmap.getD []), ∅⟩

/-- No call of a run that frees only its own pages hands out a protected page. -/
def NeverHandsOutProtected : Prop :=
  ∀ calls, Runs.Admissible Machine.step OwnPages (afterBoot info old) calls →
    ∀ call, ∀ b ∈ (Runs.run Machine.step (afterBoot info old) calls).handed call,
      ¬ Protected info (boot info old) b

/-- The modules, the bitmap and the heap fit the address space. -/
def LayoutFits : Prop :=
  reservedEnd info + bitmapWords (detectMemorySize info / pageSize) * 4 + Kheap.heapSize ≤ 2 ^ 32

instance (info : BootInfo) : Decidable (LayoutFits info) := inferInstanceAs (Decidable (_ ≤ _))

variable (m : Machine)

theorem Machine.step_low (c : Call) : (m.step c).low = (m.lowOp c).elim m.low (Pmm.step m.low) := by
  cases c with
  | pmm op => rfl
  | initHigh =>
    by_cases hzero : m.high.bits.maxBlocks = 0
    · simp only [Machine.step, Machine.lowOp, HighPool.initHigh, if_pos hzero, Option.elim_none]
    · simp only [Machine.step, Machine.lowOp, HighPool.initHigh, if_neg hzero, Option.elim_some,
        Pmm.step]
      split_ifs <;> rfl

@[simp] theorem Machine.step_got (c : Call) : (m.step c).got = m.got ∪ m.handed c := by
  cases c <;> rfl

/-- What a run keeps: the counter counts, the pages of `K` are in use, and none of them was handed
out. -/
structure Kept (K : ℕ → Prop) (m : Machine) : Prop where
  counted : WellCounted m.low
  inUse : ∀ b, K b → b < m.low.maxBlocks → m.low.isSet b = true
  notGot : ∀ b ∈ m.got, ¬ K b

theorem Kept.not_handed {K : ℕ → Prop} {m : Machine} (h : Kept K m) (c : Call) :
    ∀ b ∈ m.handed c, ¬ K b := by
  intro b hb hK
  unfold Machine.handed at hb
  cases hop : m.lowOp c with
  | none =>
    rw [hop] at hb
    exact absurd hb (Finset.notMem_empty b)
  | some op =>
    rw [hop] at hb
    obtain ⟨hlt, hclear, _⟩ := (handedOut_bits h.counted op).1 b hb
    rw [h.inUse b hK hlt] at hclear
    cases hclear

theorem kept_step {K : ℕ → Prop} (m : Machine) (c : Call) (h : Kept K m) (hown : OwnPages m c) :
    Kept K (m.step c) := by
  have hgot : ∀ b ∈ (m.step c).got, ¬ K b := by
    intro b hb
    rw [Machine.step_got, Finset.mem_union] at hb
    rcases hb with hb | hb
    · exact h.notGot b hb
    · exact h.not_handed c b hb
  have hlow := m.step_low c
  cases hop : m.lowOp c with
  | none =>
    rw [hop, Option.elim_none] at hlow
    exact ⟨hlow ▸ h.counted, hlow ▸ h.inUse, hgot⟩
  | some op =>
    rw [hop, Option.elim_some] at hlow
    refine ⟨hlow ▸ wellCounted_step m.low op h.counted, fun b hK hb => ?_, hgot⟩
    rw [hlow] at hb ⊢
    have hcov : ¬ Covers op b := fun hc => h.notGot b (hown op hop b hc) hK
    exact isSet_step_of_not_covers h.counted op hcov (h.inUse b hK (by rwa [step_maxBlocks] at hb))

section

variable {α : Type*} {step : ℕ → α → ℕ} (hstep : ∀ m d, m ≤ step m d)
include hstep

theorem le_foldl_growing (ds : List α) (n : ℕ) : n ≤ ds.foldl step n := by
  induction ds generalizing n with
  | nil => exact le_rfl
  | cons d ds ih => exact (hstep n d).trans (ih (step n d))

theorem le_foldl_of_mem {ds : List α} {d : α} (hd : d ∈ ds) {v : ℕ} (hv : ∀ m, v ≤ step m d)
    (n : ℕ) : v ≤ ds.foldl step n := by
  induction ds generalizing n with
  | nil => cases hd
  | cons c ds ih =>
    rcases mem_cons.mp hd with rfl | hd
    · exact (hv n).trans (le_foldl_growing hstep ds (step n d))
    · exact ih hd (step n c)

end

theorem le_later_end (m : ℕ) (d : Module) :
    m ≤ (if d.modEnd.toNat > m then d.modEnd.toNat else m) := by
  split_ifs <;> omega

theorem kernelEnd_le_reservedEnd :
    info.kernelEnd.toNat ≤ reservedEnd info :=
  le_foldl_growing le_later_end info.modules _

variable {info : BootInfo} {b : ℕ}

theorem modEnd_le_reservedEnd {d : Module} (hd : d ∈ info.modules) :
    d.modEnd.toNat ≤ reservedEnd info := by
  refine le_foldl_of_mem le_later_end hd (fun m => ?_) _
  split_ifs <;> omega

/-- In a layout that fits, nothing wraps before the end of the heap window. -/
theorem layout_bounds (h : LayoutFits info) :
    reservedEnd info ≤ reserveKernelAndModules info ∧
      (lowEnd info).toNat = reserveKernelAndModules info +
        bitmapWords (detectMemorySize info / pageSize) * 4 ∧
      (lowEnd info).toNat ≤ heapBase info ∧ heapBase info % pageSize = 0 := by
  unfold LayoutFits at h
  have hsize : Kheap.heapSize = 0x2000000 := rfl
  have hend : reserveKernelAndModules info =
      (reservedEnd info + (pageSize - 1)) / pageSize * pageSize := by
    rw [reserveKernelAndModules, alignUpWrap_eq, u32_of_lt]
    unfold pageSize
    omega
  have hlow : (lowEnd info).toNat = reserveKernelAndModules info +
      bitmapWords (detectMemorySize info / pageSize) * 4 := by
    apply mod_eq_of_lt
    rw [hend]
    generalize bitmapWords (detectMemorySize info / pageSize) = words at h ⊢
    unfold pageSize
    omega
  have hheap : heapBase info = Kheap.alignedStart (lowEnd info) := by
    rw [heapBase, if_pos]
    rw [hlow, hend, Kheap.heapMinStart, Kheap.heapAlign]
    generalize bitmapWords (detectMemorySize info / pageSize) = words at h ⊢
    unfold pageSize
    omega
  refine ⟨?_, hlow, ?_, ?_⟩
  · rw [hend]
    unfold pageSize
    omega
  · rw [hheap, Kheap.alignedStart, Kheap.heapAlign]
    omega
  · rw [hheap, Kheap.alignedStart, Kheap.heapAlign, pageSize]
    omega

@[simp] theorem boot_heapStart (info : BootInfo) (old : OldMemory) :
    (boot info old).heapStart = heapBase info := by
  rw [boot_eq]

@[simp] theorem boot_bitmapAddr (info : BootInfo) (old : OldMemory) :
    (boot info old).bitmapAddr = reserveKernelAndModules info := by
  rw [boot_eq]

@[simp] theorem boot_bitmapSize (info : BootInfo) (old : OldMemory) :
    (boot info old).bitmapSize = bitmapWords (detectMemorySize info / pageSize) * 4 := by
  rw [Layout.bitmapSize, getBitmapSize, boot_maxBlocks]

/-- Apart from the heap window, everything that is protected lies below the end of the bitmap. -/
theorem protected_cases (h : LayoutFits info) {old : OldMemory}
    (hb : Protected info (boot info old) b) :
    b * pageSize < (lowEnd info).toNat ∨
      Overlaps (heapBase info) (heapBase info + Kheap.heapSize) b := by
  obtain ⟨hres, hlow, -, -⟩ := layout_bounds h
  have hpage : ∀ {a n : ℕ}, a < n → a / pageSize = b → b * pageSize < n := by
    rintro a n ha rfl
    exact (div_mul_le_self a pageSize).trans_lt ha
  rcases hb with ⟨a, _, ha, hab⟩ | ⟨d, hd, a, _, ha, hab⟩ | ⟨a, _, ha, hab⟩ | hheap
  · have hkernel := kernelEnd_le_reservedEnd info
    exact .inl (hpage (by omega) hab)
  · have hmod := modEnd_le_reservedEnd hd
    exact .inl (hpage (by omega) hab)
  · rw [boot_bitmapSize, boot_bitmapAddr] at ha
    exact .inl (hpage (ha.trans_eq hlow.symm) hab)
  · rw [boot_heapStart] at hheap
    exact .inr hheap

theorem inRegion_zero_iff (size : BitVec 32) (hb : b < 2 ^ 20 - 1) :
    InRegion 0 size b ↔ b * pageSize < size.toNat := by
  have hzero : (0 : BitVec 32).toNat = 0 := rfl
  rw [inRegion_iff 0 size hb, hzero, zero_add, u32_of_lt size.isLt]
  exact and_iff_right (mul_pos (succ_pos b) (by decide))

theorem reserved_low (hb : b < 2 ^ 20 - 1) (hlow : b * pageSize < (lowEnd info).toNat) :
    Reserved info b :=
  .inl ((inRegion_zero_iff _ hb).mpr hlow)

theorem reserved_heap (hwrap : heapBase info + Kheap.heapSize < 2 ^ 32) (hb : b < 2 ^ 20 - 1)
    (hheap : Overlaps (heapBase info) (heapBase info + Kheap.heapSize) b) : Reserved info b := by
  obtain ⟨a, hlo, hhi, rfl⟩ := hheap
  refine .inr (.inr ((inRegion_iff _ _ hb).mpr ?_))
  rw [BitVec.toNat_ofNat, BitVec.toNat_ofNat, mod_eq_of_lt (by omega : heapBase info < 2 ^ 32),
    mod_eq_of_lt (by omega : Kheap.heapSize < 2 ^ 32), u32_of_lt hwrap]
  unfold pageSize
  omega

/-- When the end of the window wraps, nothing reserves its pages. -/
theorem not_reserved_heap (h : LayoutFits info) (hwrap : 2 ^ 32 ≤ heapBase info + Kheap.heapSize)
    (hb : b < 2 ^ 20 - 1) (hheap : heapBase info ≤ b * pageSize) : ¬ Reserved info b := by
  have hsize : Kheap.heapSize = 0x2000000 := rfl
  obtain ⟨hres, hlow, hbase, -⟩ := layout_bounds h
  have hbase_lt : heapBase info < 2 ^ 32 := by
    unfold pageSize at hheap
    omega
  rintro (hin | ⟨d, hd, hin⟩ | hin)
  · have hlt := (inRegion_zero_iff _ hb).mp hin
    omega
  · have hlt := ((inRegion_iff _ _ hb).mp hin).2
    have hmod := modEnd_le_reservedEnd hd
    have hend : u32 (d.modStart.toNat + (d.modEnd - d.modStart).toNat) = d.modEnd.toNat := by
      rw [BitVec.toNat_sub, u32]
      omega
    omega
  · have hlt := ((inRegion_iff _ _ hb).mp hin).2
    rw [BitVec.toNat_ofNat, BitVec.toNat_ofNat, mod_eq_of_lt hbase_lt,
      mod_eq_of_lt (by omega : Kheap.heapSize < 2 ^ 32), u32] at hlt
    omega

end MicroK.Boot
