import MicroK.HighPoolRegions

/-!
# Runs of the high page pool

The regions stay as they were recorded, and the bitmap does for their block numbers what the low
bitmap does for pages. So every page that the pool hands out is usable memory above 4 GiB, and it
stays with its owner until it is freed.
-/

namespace MicroK.HighPool

open Pmm Boot

inductive Op where
  | alloc
  | free (phys : ℕ)
deriving DecidableEq

def step (p : Pool) : Op → Pool
  | .alloc => (allocHighBlock p).1
  | .free phys => freeHighBlock p phys

/-- Without a bitmap no block is in use. -/
def setBits (p : Pool) : ℕ := if p.ready then (usedSet p.bits).card else 0

structure Inv (entries : List MmapEntry) (p : Pool) : Prop where
  sound : Sound entries p.regions p.bits.maxBlocks
  counted : p.bits.usedBlocks = setBits p

theorem usedBlocks_addRegion (p : Pool) (start stop : ℕ) :
    (addRegion p start stop).bits.usedBlocks = p.bits.usedBlocks ∧
      (addRegion p start stop).ready = p.ready := by
  unfold addRegion
  dsimp only
  split_ifs <;> exact ⟨rfl, rfl⟩

theorem usedBlocks_recordHighMemoryRegion (p : Pool) (e : MmapEntry) :
    (recordHighMemoryRegion p e).bits.usedBlocks = p.bits.usedBlocks ∧
      (recordHighMemoryRegion p e).ready = p.ready := by
  rcases recordHighMemoryRegion_cases p e with heq | ⟨_, _, heq⟩
  · rw [heq]
    exact ⟨rfl, rfl⟩
  · rw [heq]
    exact usedBlocks_addRegion p _ _

variable (mem : ℕ → BitVec 32)

theorem usedBlocks_record (entries : List MmapEntry) :
    (record mem entries).bits.usedBlocks = 0 ∧ (record mem entries).ready = false := by
  induction entries using List.reverseRecOn with
  | nil => exact ⟨rfl, rfl⟩
  | append_singleton es e ih =>
    obtain ⟨hused, hready⟩ := usedBlocks_recordHighMemoryRegion (record mem es) e
    rw [record_snoc, hused, hready]
    exact ih

theorem initHigh_cases (p : Pool) (low : State) :
    (initHigh p low).1 = p ∨
      highBitmapRegion p.bits.maxBlocks ≠ 0 ∧
        (initHigh p low).1 =
          { p with
            bits := { p.bits with
              bitmap := fun i =>
                if i < highBitmapWords p.bits.maxBlocks then 0 else p.bits.bitmap i }
            ready := true } := by
  unfold initHigh
  by_cases hzero : p.bits.maxBlocks = 0
  · rw [if_pos hzero]
    exact .inl rfl
  · rw [if_neg hzero]
    dsimp only
    by_cases hblock : (allocRegion low (highBitmapRegion p.bits.maxBlocks)).2 ≠ 0
    · rw [if_pos hblock]
      refine .inr ⟨fun hempty => hblock ?_, rfl⟩
      rw [allocRegion, if_pos hempty]
    · rw [if_neg hblock]
      exact .inl rfl

/-- A total that wraps the word count has no bitmap; every other one has a bit for each block. -/
theorem lt_highBitmapWords {total i : ℕ} (htotal : total < 2 ^ 32)
    (hregion : highBitmapRegion total ≠ 0) (hi : i < total) : i / 32 < highBitmapWords total := by
  by_cases hwrap : total + 31 < 2 ^ 32
  · rw [highBitmapWords, u32_of_lt hwrap]
    omega
  · have hwords : highBitmapWords total = 0 := by
      unfold highBitmapWords u32
      omega
    exact absurd (by rw [highBitmapRegion, hwords]; rfl) hregion

variable {entries : List MmapEntry} {p : Pool}

theorem inv_initHigh (low : State) (h : Disjoint52 entries) :
    Inv entries (initHigh (record mem entries) low).1 := by
  have hsound := sound_record mem h
  obtain ⟨hused, hready⟩ := usedBlocks_record mem entries
  rcases initHigh_cases (record mem entries) low with heq | ⟨hregion, heq⟩
  · rw [heq]
    refine ⟨hsound, ?_⟩
    rw [hused, setBits, hready]
    rfl
  · rw [heq]
    refine ⟨hsound, ?_⟩
    rw [hused, setBits, if_pos rfl, eq_comm, Finset.card_eq_zero, Finset.eq_empty_iff_forall_notMem]
    intro b hb
    obtain ⟨hlt, hset⟩ := (mem_usedSet _ b).mp hb
    have hword := lt_highBitmapWords hsound.total_lt hregion hlt
    simp only [State.isSet, if_pos hword] at hset
    simp at hset

theorem allocHighBlock_cases (p : Pool) :
    allocHighBlock p = (p, 0) ∨
      ∃ b, p.ready = true ∧ b < p.bits.maxBlocks ∧ p.bits.isSet b = false ∧
        allocHighBlock p =
          ({ p with bits := setBlock p.bits b }, highBlockIndexToPhys p.regions b) := by
  unfold allocHighBlock
  by_cases hoff : (!p.ready || decide (p.bits.maxBlocks = 0)) = true
  · exact .inl (if_pos hoff)
  · rw [if_neg hoff]
    have hready : p.ready = true := by
      cases hr : p.ready with
      | false => simp [hr] at hoff
      | true => rfl
    cases hscan : allocScanWords p.bits (highBitmapWords p.bits.maxBlocks) 0 with
    | none => exact .inl rfl
    | some b =>
      obtain ⟨hb, hclear⟩ := allocScanWords_spec _ _ b hscan
      exact .inr ⟨b, hready, hb, hclear, by rw [← takeBlock_eq hb hclear]⟩

theorem freeHighBlock_cases (h : Inv entries p) (phys : ℕ) :
    freeHighBlock p phys = p ∨
      ∃ b, p.ready = true ∧ highPhysToBlockIndex p.regions phys = some b ∧
        freeHighBlock p phys = { p with bits := unsetBlock p.bits b } := by
  unfold freeHighBlock
  cases hr : p.ready with
  | false => exact .inl rfl
  | true =>
    rw [if_neg (by decide)]
    cases hfind : highPhysToBlockIndex p.regions phys with
    | none => exact .inl rfl
    | some b =>
      have hb := (highBlockIndexToPhys_physToIndex h.sound hfind).1
      exact .inr ⟨b, rfl, rfl, by rw [← releaseBlock_eq hb]⟩

theorem inv_step (p : Pool) (op : Op) (h : Inv entries p) : Inv entries (step p op) := by
  have hmax := h.sound.total_lt
  have hcounted := h.counted
  cases op with
  | alloc =>
    rcases allocHighBlock_cases p with heq | ⟨b, hready, _, _, heq⟩
    · simpa only [step, heq] using h
    · rw [setBits, if_pos hready] at hcounted
      simp only [step, heq]
      refine ⟨by simpa using h.sound, ?_⟩
      rw [setBits, if_pos hready]
      exact used_eq_setBlock hmax hcounted b
  | free phys =>
    rcases freeHighBlock_cases h phys with heq | ⟨b, hready, _, heq⟩
    · simpa only [step, heq] using h
    · rw [setBits, if_pos hready] at hcounted
      simp only [step, heq]
      refine ⟨by simpa using h.sound, ?_⟩
      rw [setBits, if_pos hready]
      exact used_eq_unsetBlock hmax hcounted b

@[simp] theorem step_regions (p : Pool) (op : Op) : (step p op).regions = p.regions := by
  cases op with
  | alloc =>
    rcases allocHighBlock_cases p with heq | ⟨b, _, _, _, heq⟩ <;> simp only [step, heq]
  | free phys =>
    simp only [step, freeHighBlock]
    split_ifs
    · rfl
    · split <;> rfl

def Taken (p : Pool) (a : ℕ) : Prop :=
  ∃ b, highPhysToBlockIndex p.regions a = some b ∧ p.bits.isSet b = true

theorem taken_step (h : Inv entries p) {op : Op} {a : ℕ} (hop : op ≠ .free a) (htaken : Taken p a) :
    Taken (step p op) a := by
  obtain ⟨b, hab, hset⟩ := htaken
  refine ⟨b, by rw [step_regions]; exact hab, ?_⟩
  cases op with
  | alloc =>
    rcases allocHighBlock_cases p with heq | ⟨c, _, _, _, heq⟩
    · simpa only [step, heq] using hset
    · simp only [step, heq, isSet_setBlock, hset, Bool.true_or]
  | free phys =>
    rcases freeHighBlock_cases h phys with heq | ⟨c, _, hc, heq⟩
    · simpa only [step, heq] using hset
    · have hne : ¬ (b = c ∧ c < p.bits.maxBlocks) := by
        rintro ⟨rfl, _⟩
        have hphys := (highBlockIndexToPhys_physToIndex h.sound hc).2
        have ha := (highBlockIndexToPhys_physToIndex h.sound hab).2
        exact hop (by rw [← hphys, ha])
      simp [step, heq, isSet_unsetBlock, hset, decide_eq_false hne, Bool.not_false, Bool.and_self]

theorem allocHighBlock_taken (h : Inv entries p) (ha : (allocHighBlock p).2 ≠ 0) :
    ¬ Taken p (allocHighBlock p).2 ∧ Taken (step p .alloc) (allocHighBlock p).2 := by
  rcases allocHighBlock_cases p with heq | ⟨b, _, hb, hclear, heq⟩
  · exact absurd (by rw [heq]) ha
  · have hindex := highPhysToBlockIndex_indexToPhys h.sound hb
    rw [heq]
    refine ⟨?_, b, ?_, ?_⟩
    · rintro ⟨c, hc, hset⟩
      obtain rfl : b = c := Option.some.inj (hindex.symm.trans hc)
      rw [hclear] at hset
      cases hset
    · rw [step_regions]
      exact hindex
    · simp only [step, heq, isSet_setBlock, true_and, decide_eq_true hb, Bool.or_true]

theorem allocHighBlock_inside (h : Inv entries p) (ha : (allocHighBlock p).2 ≠ 0) :
    (allocHighBlock p).2 % pageSize = 0 ∧ 2 ^ 32 ≤ (allocHighBlock p).2 ∧
      ∃ e ∈ entries, e.type = 1 ∧ ∀ k < pageSize, e.Contains ((allocHighBlock p).2 + k) := by
  rcases allocHighBlock_cases p with heq | ⟨b, _, hb, _, heq⟩
  · exact absurd (by rw [heq]) ha
  · obtain ⟨r, hr, hrb⟩ := h.sound.indexed.exists_region (Nat.zero_le b) hb
    obtain ⟨e, he, htype, hin⟩ := h.sound.inside r hr
    rw [heq]
    simp only [highBlockIndexToPhys_of_mem h.sound hr hrb]
    refine ⟨?_, ?_, e, he, htype, fun k hk => hin _ (contains_page hrb hk)⟩
    · rw [Nat.add_mul_mod_self_right]
      exact h.sound.aligned r hr
    · exact (h.sound.high r hr).1.trans (Nat.le_add_right _ _)

/-- What the pool promises in a state: an allocation returns a usable page above 4 GiB, which no
later allocation returns before it is freed; block numbers and pages name each other; the counter
counts the set bits. -/
structure Correct (entries : List MmapEntry) (p : Pool) : Prop where
  page : (allocHighBlock p).2 ≠ 0 → (allocHighBlock p).2 % pageSize = 0 ∧
    2 ^ 32 ≤ (allocHighBlock p).2 ∧
    ∃ e ∈ entries, e.type = 1 ∧ ∀ k < pageSize, e.Contains ((allocHighBlock p).2 + k)
  fresh : (allocHighBlock p).2 ≠ 0 → ∀ later, Op.free (allocHighBlock p).2 ∉ later →
    (allocHighBlock (Runs.run step (allocHighBlock p).1 later)).2 ≠ (allocHighBlock p).2
  index_phys : ∀ i < p.bits.maxBlocks,
    highPhysToBlockIndex p.regions (highBlockIndexToPhys p.regions i) = some i
  phys_index : ∀ a i, highPhysToBlockIndex p.regions a = some i →
    i < p.bits.maxBlocks ∧ highBlockIndexToPhys p.regions i = a
  counter : p.bits.usedBlocks = setBits p

theorem Inv.correct (h : Inv entries p) :
    Correct entries p where
  page := allocHighBlock_inside h
  fresh ha later hlater hagain := by
    have hstep := inv_step p .alloc h
    have hkeep : Taken (Runs.run step (step p .alloc) later) (allocHighBlock p).2 :=
      Runs.run_preserves_of_avoids (B := fun o => o = .free (allocHighBlock p).2)
        (P := fun q => Taken q (allocHighBlock p).2) inv_step
        (fun _ _ hq hne hP => taken_step hq hne hP) _ later hstep (allocHighBlock_taken h ha).2
        (fun o ho heq => hlater (heq ▸ ho))
    have hlast := Runs.run_invariant_of_step inv_step _ later hstep
    change (allocHighBlock (Runs.run step (step p .alloc) later)).2 = _ at hagain
    have hfree := (allocHighBlock_taken hlast (hagain ▸ ha)).1
    rw [hagain] at hfree
    exact hfree hkeep
  index_phys _ hi := highPhysToBlockIndex_indexToPhys h.sound hi
  phys_index _ _ ha := highBlockIndexToPhys_physToIndex h.sound ha
  counter := h.counted

/-- For a map with disjoint usable ranges below `2 ^ 52`, the pool is correct after any allocations
and frees. -/
theorem run_correct (entries : List MmapEntry) (h : Disjoint52 entries) (mem : ℕ → BitVec 32)
    (low : State) (ops : List Op) :
    Correct entries (Runs.run step (initHigh (record mem entries) low).1 ops) :=
  (Runs.run_invariant_of_step inv_step _ ops (inv_initHigh mem low h)).correct

def twoRanges : List MmapEntry :=
  [⟨0xC0000000, 0, 0x40001800, 0, 1⟩, ⟨0, 2, 0x2000, 0, 1⟩]

theorem run_correct_twoRanges :
    Correct twoRanges (Runs.run step
      (initHigh (record (fun _ => 0) twoRanges) ⟨fun _ => 0, 16, 0⟩).1
      [.alloc, .alloc, .free 0x100000000]) := by
  apply run_correct
  constructor
  · refine List.pairwise_pair.mpr fun _ _ a hd he => ?_
    obtain ⟨_, hd⟩ := hd
    obtain ⟨he, _⟩ := he
    have hend : MmapEntry.base ⟨0xC0000000, 0, 0x40001800, 0, 1⟩ +
        MmapEntry.length ⟨0xC0000000, 0, 0x40001800, 0, 1⟩ ≤
      MmapEntry.base ⟨0, 2, 0x2000, 0, 1⟩ := by decide
    omega
  · decide

end MicroK.HighPool
