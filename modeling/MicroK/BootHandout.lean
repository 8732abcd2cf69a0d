import MicroK.BootPlacement

/-!
# Which pages the allocators hand out

The pages that some run of the allocators hands out are those that are free after boot. The
protected pages are not among them unless the heap window ends at 4 GiB or above, where it is not
reserved.
-/

namespace MicroK.Boot

open Pmm Kheap Runs

/-- The heap window is reserved, or no usable memory lies in it. -/
def HeapWindowSafe (info : BootInfo) (entries : List MmapEntry) : Prop :=
  heapBase info + Kheap.heapSize < 2 ^ 32 ∨
    ∀ a, heapBase info ≤ a → a < heapBase info + Kheap.heapSize →
      a / pageSize < detectMemorySize info / pageSize → ¬ Usable entries a

variable {info : BootInfo}

theorem protected_heap {old : OldMemory} {a : ℕ} (hlo : heapBase info ≤ a)
    (hhi : a < heapBase info + heapSize) : Protected info (boot info old) (a / pageSize) := by
  have hheap := boot_heapStart info old
  exact .inr (.inr (.inr ⟨a, hheap.le.trans hlo, hheap.symm ▸ hhi, rfl⟩))

theorem wellCounted_boot (info : BootInfo) (old : OldMemory) :
    WellCounted (boot info old).pmm := by
  apply wellCounted_setBlocks
  apply wellCounted_reserveMultibootModules
  apply wellCounted_setBlocks
  apply wellCounted_freeUsableMemory
  exact wellCounted_init _ _

theorem protected_inUse {entries : List MmapEntry}
    (hmap : info.mmap = some entries) (h : LayoutFits info) (hsafe : HeapWindowSafe info entries)
    (old : OldMemory) {b : ℕ} (hprot : Protected info (boot info old) b)
    (hb : b < detectMemorySize info / pageSize) : (boot info old).pmm.isSet b = true := by
  have hlast := lt_last_page hb
  obtain ⟨-, -, -, halign⟩ := layout_bounds h
  by_contra hclear
  have hfree : Free (boot info old) b :=
    ⟨by rwa [boot_maxBlocks], Bool.not_eq_true _ ▸ hclear⟩
  obtain ⟨-, ⟨e, he, htouch⟩, hres⟩ := (free_boot_iff hmap old b).mp hfree
  rcases protected_cases h hprot with hlow | hheap
  · exact hres (reserved_low hlast hlow)
  · rcases hsafe with hwrap | hnone
    · exact hres (reserved_heap hwrap hlast hheap)
    · obtain ⟨htype, a, rfl, hin, _⟩ := (touches_iff _ e b).mp htouch
      obtain ⟨c, hlo, hhi, hpage⟩ := hheap
      have hsize : heapSize = 0x2000000 := rfl
      refine hnone a ?_ ?_ hb ⟨e, he, htype, hin⟩
      · unfold pageSize at *
        omega
      · unfold pageSize at *
        omega

theorem run_low (m : Machine) (ops : List Op) :
    (run Machine.step m (ops.map .pmm)).low = run Pmm.step m.low ops := by
  induction ops generalizing m with
  | nil => rfl
  | cons op ops ih => exact ih _

theorem admissible_allocBlock (m : Machine) (n : ℕ) :
    Runs.Admissible Machine.step OwnPages m
      ((List.replicate n Op.allocBlock).map .pmm) := by
  induction n generalizing m with
  | zero => trivial
  | succ n ih =>
    refine ⟨?_, ih _⟩
    rintro op hop b hcov
    obtain rfl : Op.allocBlock = op := Option.some.inj hop
    exact hcov.elim

/-- A free page that is protected is handed out sooner or later. -/
theorem exists_handed_of_free {old : OldMemory} {b : ℕ} (hpos : 1 ≤ b)
    (hfree : Free (boot info old) b) :
    ∃ calls, Runs.Admissible Machine.step OwnPages (afterBoot info old) calls ∧
      b ∈ (run Machine.step (afterBoot info old) calls).handed (.pmm .allocBlock) := by
  obtain ⟨n, hn⟩ := exists_handedOut (wellCounted_boot info old) hpos hfree.1 hfree.2
  refine ⟨(List.replicate n Op.allocBlock).map .pmm, admissible_allocBlock _ n, ?_⟩
  change b ∈ handedOut (run Machine.step (afterBoot info old) _).low .allocBlock
  rw [run_low]
  exact hn

/-- In a layout that fits, no protected page is ever handed out exactly when the end of the heap
window does not wrap or no usable memory lies in the window. -/
theorem never_hands_out_protected_iff {info : BootInfo} {entries : List MmapEntry}
    (hmap : info.mmap = some entries) (h : LayoutFits info) (old : OldMemory) :
    NeverHandsOutProtected info old ↔ HeapWindowSafe info entries := by
  constructor
  · intro hnever
    by_contra hunsafe
    simp only [HeapWindowSafe, not_or, not_lt, not_forall, not_not] at hunsafe
    obtain ⟨hwrap, a, hlo, hhi, hsize, e, he, htype, hin⟩ := hunsafe
    obtain ⟨-, -, hbase, halign⟩ := layout_bounds h
    have hlast := lt_last_page hsize
    have hpage : heapBase info ≤ a / pageSize * pageSize := by
      unfold pageSize at *
      omega
    have hmem : a < detectMemorySize info := by
      unfold pageSize at hsize
      omega
    have htouch := (touches_iff (detectMemorySize info) e _).mpr ⟨htype, a, rfl, hin, hmem⟩
    have hfree : Free (boot info old) (a / pageSize) :=
      (free_boot_iff hmap old _).mpr
        ⟨hsize, ⟨e, he, htouch⟩, not_reserved_heap h hwrap hlast hpage⟩
    have hpos : 1 ≤ a / pageSize := by
      have hsize : heapSize = 0x2000000 := rfl
      unfold pageSize
      omega
    obtain ⟨calls, hcalls, hmem⟩ := exists_handed_of_free hpos hfree
    exact hnever calls hcalls _ _ hmem (protected_heap hlo hhi)
  · intro hsafe calls hcalls
    have hkept : Kept (Protected info (boot info old)) (afterBoot info old) := by
      refine ⟨wellCounted_boot info old, fun b hprot hb => ?_,
        fun b hb => absurd hb (Finset.notMem_empty b)⟩
      exact protected_inUse hmap h hsafe old hprot (by rwa [← boot_maxBlocks info old])
    exact (run_invariant kept_step _ calls hkept hcalls).not_handed

def smallInfo : BootInfo :=
  ⟨some [⟨0, 0, 0x9FC00, 0, 1⟩, ⟨0x100000, 0, 0x3F00000, 0, 1⟩], none,
    some [⟨0x300000, 0x400000⟩], 0x200000⟩

theorem never_hands_out_protected_small :
    LayoutFits smallInfo ∧ NeverHandsOutProtected smallInfo zeroMemory :=
  ⟨by decide, (never_hands_out_protected_iff rfl (by decide) zeroMemory).mpr (.inl (by decide))⟩

/-- A machine with memory up to the last page below 4 GiB and a module that leaves just enough room
for the bitmap and the heap. -/
def fullInfo : BootInfo :=
  ⟨some [⟨0x100000, 0, 0xFFEFF000, 0, 1⟩], none, some [⟨0x300000, 0xFDFE0000⟩], 0x200000⟩

/-- The heap window starts at `0xFE000000`, and its first page is handed out. -/
theorem heap_page_handed_out :
    LayoutFits fullInfo ∧ Protected fullInfo (boot fullInfo zeroMemory) 0xFE000 ∧
      ∃ calls, Runs.Admissible Machine.step OwnPages (afterBoot fullInfo zeroMemory) calls ∧
        0xFE000 ∈ (Runs.run Machine.step (afterBoot fullInfo zeroMemory) calls).handed
          (.pmm .allocBlock) := by
  refine ⟨by decide, ?_, ?_⟩
  · exact protected_heap (a := 0xFE000000) (by decide) (by decide)
  · exact exists_handed_of_free (by norm_num) ((free_boot_iff rfl zeroMemory _).mpr (by decide))

/-- Some run of the allocators that frees only its own pages hands out the page. -/
def CanHandOut (info : BootInfo) (old : OldMemory) (b : ℕ) : Prop :=
  ∃ calls, Runs.Admissible Machine.step OwnPages (afterBoot info old) calls ∧
    ∃ call, b ∈ (Runs.run Machine.step (afterBoot info old) calls).handed call

theorem canHandOut_iff (info : BootInfo) (old : OldMemory) {b : ℕ} (hpos : 1 ≤ b) :
    CanHandOut info old b ↔ Free (boot info old) b := by
  constructor
  · rintro ⟨calls, hcalls, call, hmem⟩
    by_contra hfree
    have hkept : Kept (· = b) (afterBoot info old) := by
      refine ⟨wellCounted_boot info old, ?_, fun c hc => absurd hc (Finset.notMem_empty c)⟩
      rintro c rfl hlt
      by_contra hclear
      exact hfree ⟨hlt, Bool.not_eq_true _ ▸ hclear⟩
    exact (run_invariant kept_step _ calls hkept hcalls).not_handed call b hmem rfl
  · intro hfree
    obtain ⟨calls, hcalls, hmem⟩ := exists_handed_of_free hpos hfree
    exact ⟨calls, hcalls, _, hmem⟩

end MicroK.Boot
