import MicroK.PmmAllocator

/-!
# The largest free region

The scan for the longest run of free pages, by which `llm_model_fits` decides before a region is
allocated.
-/

namespace MicroK.Pmm

open Finset

def largestScan (s : State) : ℕ → ℕ → ℕ → ℕ → ℕ
  | 0, _, largestRun, _ => largestRun
  | fuel + 1, block, largestRun, currentRun =>
    if s.bitClear block then
      largestScan s fuel (block + 1)
        (if currentRun + 1 > largestRun then currentRun + 1 else largestRun) (currentRun + 1)
    else largestScan s fuel (block + 1) largestRun 0

def largestFreeRegionBytes (s : State) : ℕ :=
  u32 (largestScan s (s.maxBlocks - 1) 1 0 0 * pageSize)

/-- The product of two fields that `pmm_get_stats` fills in. -/
def freeBytes (s : State) : ℕ := u32 (u32 (s.maxBlocks + (2 ^ 32 - s.usedBlocks)) * pageSize)

/-- The check that `llm_load_model_file` makes before it allocates. -/
def modelFits (s : State) (size : BitVec 32) : Bool :=
  !(freeBytes s < size.toNat || largestFreeRegionBytes s < size.toNat)

variable {s : State}

/-- Both scans meet the same runs. -/
theorem le_largestScan_iff {needed : ℕ} (fuel block runStart largestRun runLen : ℕ) :
    needed ≤ largestScan s fuel block largestRun runLen ↔
      needed ≤ largestRun ∨ (regionScan s needed fuel block runStart runLen).isSome := by
  induction fuel generalizing block runStart largestRun runLen with
  | zero => simp [largestScan, regionScan]
  | succ fuel ih =>
    rw [largestScan, regionScan]
    split_ifs with hbit hmore hdone hdone
    · exact iff_of_true ((ih _ 0 _ _).2 (.inl hdone)) (.inr rfl)
    · rw [ih _ (runOrigin block runStart runLen)]
      exact or_congr_left (by omega)
    · exact iff_of_true ((ih _ 0 _ _).2 (.inl (by omega))) (.inr rfl)
    · exact ih _ _ _ _
    · exact ih _ _ _ _

theorem le_largestScan_iff_exists {n : ℕ} (hn : 0 < n) :
    n ≤ largestScan s (s.maxBlocks - 1) 1 0 0 ↔ ∃ st, 1 ≤ st ∧ FreeRun s st n := by
  have hspec := firstRun_regionScan (s := s) hn
  rw [le_largestScan_iff _ _ 0, or_iff_right (by omega)]
  cases hs : regionScan s n (s.maxBlocks - 1) 1 0 0 with
  | none =>
    rw [hs] at hspec
    exact iff_of_false (by simp) (fun ⟨st, hst, hfree⟩ => hspec st hst hfree)
  | some start =>
    rw [hs] at hspec
    exact iff_of_true rfl ⟨start, hspec.1, hspec.2.1⟩

theorem card_le_of_freeRun {st n : ℕ} (hfree : FreeRun s st n) :
    (usedSet s).card + n ≤ s.maxBlocks := by
  have hdisj : Disjoint (usedSet s) (Finset.Ico st (st + n)) := by
    refine disjoint_left.2 (fun c hused hrun => ?_)
    have hclear := hfree.2 c (mem_Ico.1 hrun).1 (mem_Ico.1 hrun).2
    rw [(mem_filter.1 hused).2] at hclear
    cases hclear
  have hsub : usedSet s ∪ Finset.Ico st (st + n) ⊆ Finset.range s.maxBlocks := by
    refine union_subset (filter_subset _ _) (fun c hc => ?_)
    exact mem_range.2 ((mem_Ico.1 hc).2.trans_le hfree.1)
  have hcard := card_le_card hsub
  rw [card_union_of_disjoint hdisj, Nat.card_Ico, card_range] at hcard
  omega

theorem largestFreeRegionBytes_eq (hmax : s.maxBlocks < 2 ^ 20) :
    largestFreeRegionBytes s = largestScan s (s.maxBlocks - 1) 1 0 0 * pageSize := by
  rcases Nat.eq_zero_or_pos (largestScan s (s.maxBlocks - 1) 1 0 0) with hzero | hpos
  · rw [largestFreeRegionBytes, hzero]
    rfl
  · obtain ⟨st, hst, hend, -⟩ := (le_largestScan_iff_exists hpos).1 le_rfl
    exact u32_of_lt (by unfold pageSize; omega)

theorem blocksOf_pos {size : BitVec 32} (hsize : size ≠ 0) : 0 < blocksOf size := by
  have hpos := toNat_pos_of_ne_zero hsize
  unfold blocksOf pageSize
  omega

theorem allocRegion_ne_zero_iff (hmax : s.maxBlocks < 2 ^ 20) {size : BitVec 32}
    (hsize : size ≠ 0) :
    (allocRegion s size).2 ≠ 0 ↔ ∃ st, 1 ≤ st ∧ FreeRun s st (blocksOf size) := by
  obtain ⟨r, hr, he⟩ := allocRegion_first hmax hsize
  rw [he]
  cases r with
  | none => exact iff_of_false (fun h => h rfl) (fun ⟨st, hst, hfree⟩ => hr st hst hfree)
  | some start =>
    refine iff_of_true ?_ ⟨start, hr.1, hr.2.1⟩
    have hend := hr.2.1.1
    have hstart := hr.1
    change u32 (start * pageSize) ≠ 0
    rw [u32_of_lt (by unfold pageSize; omega)]
    unfold pageSize
    omega

theorem allocRegion_bitmap_ne (hmax : s.maxBlocks < 2 ^ 20) {size : BitVec 32} (hsize : size ≠ 0)
    (hok : (allocRegion s size).2 ≠ 0) : (allocRegion s size).1.bitmap ≠ s.bitmap := by
  obtain ⟨r, hr, he⟩ := allocRegion_first hmax hsize
  rw [he] at hok ⊢
  cases r with
  | none => exact absurd rfl hok
  | some start =>
    intro heq
    have hpos := blocksOf_pos hsize
    have hend := hr.2.1.1
    have hset := isSet_setBlocks s start (blocksOf size) start
    rw [decide_eq_true ⟨le_rfl, by omega, by omega⟩, Bool.or_true, State.isSet] at hset
    have hclear := hr.2.1.2 start le_rfl (by omega)
    rw [State.isSet, ← heq] at hclear
    exact absurd (hset.symm.trans hclear) (by decide)

theorem modelFits_iff (h : WellCounted s) {size : BitVec 32} (hsize : size ≠ 0) :
    modelFits s size = true ↔ ∃ st, 1 ≤ st ∧ FreeRun s st (blocksOf size) := by
  have hmax := h.max_lt
  rw [← le_largestScan_iff_exists (blocksOf_pos hsize), modelFits, Bool.not_eq_true',
    Bool.or_eq_false_iff, decide_eq_false_iff_not, decide_eq_false_iff_not,
    largestFreeRegionBytes_eq hmax]
  constructor
  · rintro ⟨-, hle⟩
    unfold blocksOf pageSize at *
    omega
  · intro hle
    obtain ⟨st, -, hfree⟩ := (le_largestScan_iff_exists (blocksOf_pos hsize)).1 hle
    have hcard := card_le_of_freeRun hfree
    rw [← h.used_eq] at hcard
    have hfreeBytes : freeBytes s = (s.maxBlocks - s.usedBlocks) * pageSize := by
      unfold freeBytes u32 pageSize
      omega
    unfold blocksOf pageSize at *
    omega

/-- A region is handed out exactly when the largest free region holds it, at the lowest address
from the second page on, and the check in front of the load of a model says the same. -/
theorem allocRegion_iff_largest (hmax : s.maxBlocks < 2 ^ 20) {size : BitVec 32}
    (hsize : size ≠ 0) :
    ((allocRegion s size).2 ≠ 0 ↔ blocksOf size * pageSize ≤ largestFreeRegionBytes s) ∧
    ((allocRegion s size).2 ≠ 0 → IsLeast {a | pageSize ≤ a ∧ pageSize ∣ a ∧
      FreeRun s (a / pageSize) (blocksOf size)} (allocRegion s size).2) ∧
    (s.usedBlocks = (usedSet s).card →
      (modelFits s size = true ↔ (allocRegion s size).2 ≠ 0)) := by
  have hiff := allocRegion_ne_zero_iff hmax hsize
  refine ⟨?_, fun hok => ?_,
    fun hused => (modelFits_iff ⟨hused, hmax⟩ hsize).trans hiff.symm⟩
  · rw [hiff, largestFreeRegionBytes_eq hmax, ← le_largestScan_iff_exists (blocksOf_pos hsize)]
    exact (Nat.mul_le_mul_right_iff (by decide)).symm
  · obtain ⟨r, hr, he⟩ := allocRegion_first hmax hsize
    cases r with
    | none =>
      rw [he] at hok
      exact absurd rfl hok
    | some start =>
      obtain ⟨hstart, hfree, hleast⟩ := hr
      have hend := hfree.1
      have haddr : (allocRegion s size).2 = start * pageSize := by
        rw [he]
        exact u32_of_lt (by unfold pageSize; omega)
      rw [haddr]
      refine ⟨⟨Nat.le_mul_of_pos_left _ hstart, Dvd.intro_left _ rfl, ?_⟩, ?_⟩
      · rwa [Nat.mul_div_cancel _ (by decide)]
      · rintro a ⟨hlow, ⟨k, rfl⟩, hrun⟩
        rw [Nat.mul_div_cancel_left _ (by decide)] at hrun
        rw [Nat.mul_comm]
        refine Nat.mul_le_mul_left _ (hleast k (Nat.pos_of_ne_zero ?_) hrun)
        rintro rfl
        exact absurd hlow (by decide)

/-- Two free pages behind the first one. -/
theorem modelFits_two_pages : modelFits ⟨fun _ => 1#32, 3, 1⟩ 8192#32 = true :=
  ((allocRegion_iff_largest (by decide) (by decide)).2.2 (by decide)).2 (by decide)

end MicroK.Pmm
