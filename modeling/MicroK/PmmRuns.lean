import MicroK.Runs
import MicroK.PmmAllocator

/-!
# Runs of the page allocator

The calls that change the bitmap after `init`, in any order and with any arguments. `handedOut`
is the set of blocks that a call returns to its caller: a returned address of zero means that
nothing was handed out. `Covers` is the page-rounded range that a freeing call releases.
-/

namespace MicroK.Pmm

open Runs Finset Nat Bool

inductive Op where
  | allocBlock
  | allocRegion (size : BitVec 32)
  | freeBlock (ptr : BitVec 32)
  | freeRegion (base size : BitVec 32)
  | reserveRegion (base size : BitVec 32)

variable (s : State)

def step : Op → State
  | .allocBlock => (allocBlock s).1
  | .allocRegion size => (allocRegion s size).1
  | .freeBlock ptr => freeBlock s ptr
  | .freeRegion base size => freeRegion s base size
  | .reserveRegion base size => reserveRegion s base size

/-- The address that a call returns; the calls without a result return zero. -/
def returned : Op → ℕ
  | .allocBlock => (allocBlock s).2
  | .allocRegion size => (allocRegion s size).2
  | _ => 0

/-- The pages that an allocation of this kind occupies. -/
def Op.pages : Op → ℕ
  | .allocBlock => 1
  | .allocRegion size => (size.toNat + (pageSize - 1)) / pageSize
  | _ => 0

def handedOut (op : Op) : Finset ℕ :=
  if returned s op = 0 then ∅
  else Finset.Ico (returned s op / pageSize) (returned s op / pageSize + op.pages)

def Covers : Op → ℕ → Prop
  | .freeBlock ptr, b => ptr.toNat / pageSize = b
  | .freeRegion base size, b => regionStart base ≤ b ∧ b < regionEnd base size
  | _, _ => False

theorem wellCounted_step (op : Op) (h : WellCounted s) : WellCounted (step s op) := by
  cases op with
  | allocBlock =>
    rcases allocBlock_cases s with he | ⟨b, _, _, he⟩
    · simpa only [step, he] using h
    · simpa only [step, he] using wellCounted_setBlock h b
  | allocRegion size =>
    rcases allocRegion_cases s h.max_lt size with he | ⟨start, _, _, _, he⟩
    · simpa only [step, he] using h
    · simpa only [step, he] using wellCounted_setBlocks h start _
  | freeBlock ptr => exact wellCounted_unsetBlock h _
  | freeRegion base size => exact wellCounted_unsetBlocks h _ _
  | reserveRegion base size => exact wellCounted_setBlocks h _ _

@[simp] theorem step_maxBlocks (op : Op) : (step s op).maxBlocks = s.maxBlocks := by
  cases op with
  | allocBlock =>
    rcases allocBlock_cases s with he | ⟨b, _, _, he⟩ <;> simp [step, he]
  | allocRegion size =>
    simp only [step, allocRegion]
    split_ifs
    · rfl
    · split <;> simp
  | freeBlock ptr => exact unsetBlock_maxBlocks s _
  | freeRegion base size => exact unsetBlocks_maxBlocks s _ _
  | reserveRegion base size => exact setBlocks_maxBlocks s _ _

theorem u32_page_div {b : ℕ} (hb : b < 2 ^ 20) : u32 (b * pageSize) / pageSize = b := by
  rw [u32_of_lt (by unfold pageSize; omega)]
  exact Nat.mul_div_cancel b (by decide)

variable {s : State}

theorem handedOut_cases (h : WellCounted s) (op : Op) : handedOut s op = ∅ ∨
      ∃ start n, handedOut s op = Finset.Ico start (start + n) ∧ start + n ≤ s.maxBlocks ∧
        (∀ c, start ≤ c → c < start + n → s.isSet c = false) ∧ step s op = setBlocks s start n := by
  by_cases hz : returned s op = 0
  · exact .inl (if_pos hz)
  · have hmax := h.max_lt
    unfold handedOut
    rw [if_neg hz]
    cases op with
    | allocBlock =>
      rcases allocBlock_cases s with he | ⟨b, hb, hclear, he⟩
      · exact absurd (by simp only [returned, he]) hz
      · refine .inr ⟨b, 1, ?_, hb, ?_, ?_⟩
        · simp only [returned, he, u32_page_div (hb.trans hmax), Op.pages]
        · intro c hc hlt
          obtain rfl : c = b := by omega
          exact hclear
        · simp only [step, he]
          rfl
    | allocRegion size =>
      rcases allocRegion_cases s hmax size with he | ⟨start, _, hend, hclear, he⟩
      · exact absurd (by simp only [returned, he]) hz
      · refine .inr ⟨start, _, ?_, hend, hclear, ?_⟩
        · simp [returned, he, u32_page_div ((le_of_add_right_le hend).trans_lt hmax), Op.pages]
        · simp only [step, he]
    | freeBlock ptr => exact absurd rfl hz
    | freeRegion base size => exact absurd rfl hz
    | reserveRegion base size => exact absurd rfl hz

theorem isSet_step_of_not_covers (h : WellCounted s) (op : Op) {b : ℕ}
    (hcov : ¬ Covers op b) (hb : s.isSet b = true) : (step s op).isSet b = true := by
  cases op with
  | allocBlock =>
    rcases allocBlock_cases s with he | ⟨c, _, _, he⟩
    · simpa only [step, he] using hb
    · simp only [step, he, isSet_setBlock, hb, Bool.true_or]
  | allocRegion size =>
    rcases allocRegion_cases s h.max_lt size with he | ⟨start, _, _, _, he⟩
    · simpa only [step, he] using hb
    · simp only [step, he, isSet_setBlocks, hb, Bool.true_or]
  | freeBlock ptr =>
    have hne : ¬ (b = ptr.toNat / pageSize ∧ ptr.toNat / pageSize < s.maxBlocks) :=
      fun hc => hcov hc.1.symm
    simp [step, freeBlock, isSet_unsetBlock, hb, decide_eq_false hne, Bool.not_false, Bool.and_self]
  | freeRegion base size =>
    have hne : ¬ (regionStart base ≤ b ∧
        b < regionStart base + (regionEnd base size - regionStart base) ∧ b < s.maxBlocks) := by
      rintro ⟨hlo, hhi, _⟩
      exact hcov ⟨hlo, by omega⟩
    simp [step, freeRegion, isSet_unsetBlocks, hb, decide_eq_false hne, Bool.not_false,
      Bool.and_self]
  | reserveRegion base size =>
    simp only [step, reserveRegion, isSet_setBlocks, hb, Bool.true_or]

theorem pages_pos {op : Op} (hr : returned s op ≠ 0) : 0 < op.pages := by
  cases op with
  | allocBlock => exact one_pos
  | allocRegion size =>
    have hpos : 0 < size.toNat :=
      toNat_pos_of_ne_zero fun hz => hr (by simp only [returned, allocRegion, if_pos hz])
    simp only [Op.pages, pageSize]
    omega
  | freeBlock ptr => exact absurd rfl hr
  | freeRegion base size => exact absurd rfl hr
  | reserveRegion base size => exact absurd rfl hr

theorem handedOut_bits (h : WellCounted s) (op : Op) : (∀ b ∈ handedOut s op,
        b < s.maxBlocks ∧ s.isSet b = false ∧ (step s op).isSet b = true) ∧
      (returned s op ≠ 0 → ∀ b, b ∉ handedOut s op → (step s op).isSet b = s.isSet b) := by
  rcases handedOut_cases h op with he | ⟨start, n, he, hend, hclear, hstep⟩
  · refine ⟨fun b hb => ?_, fun hr b _ => ?_⟩
    · rw [he] at hb
      exact absurd hb (notMem_empty b)
    · have hpos := pages_pos hr
      simp only [handedOut, if_neg hr, Finset.Ico_eq_empty_iff] at he
      omega
  · rw [he, hstep]
    refine ⟨fun b hb => ?_, fun _ b hb => ?_⟩
    · rw [mem_Ico] at hb
      refine ⟨by omega, hclear b hb.1 hb.2, ?_⟩
      rw [isSet_setBlocks, decide_eq_true ⟨hb.1, hb.2, by omega⟩, Bool.or_true]
    · rw [mem_Ico] at hb
      rw [isSet_setBlocks, decide_eq_false (fun hc => hb ⟨hc.1, hc.2.1⟩), Bool.or_false]

theorem wellCounted_run (memSize : BitVec 32) (mem : ℕ → BitVec 32) (ops : List Op) :
    WellCounted (run step (init memSize mem) ops) :=
  run_invariant_of_step wellCounted_step _ ops (wellCounted_init memSize mem)

/-- After any calls that follow `init`, the counter is the number of set bits, an allocation takes
clear bits, sets them and changes no other, and a block that was handed out stays out of reach
until a freeing call covers it. -/
theorem run_bitmap_sound (memSize : BitVec 32) (mem : ℕ → BitVec 32) (ops : List Op) :
    let s := Runs.run step (init memSize mem) ops
    s.usedBlocks = ((Finset.range s.maxBlocks).filter (fun b => s.isSet b)).card ∧
      (∀ op, (∀ b ∈ handedOut s op,
          b < s.maxBlocks ∧ s.isSet b = false ∧ (step s op).isSet b = true) ∧
        (returned s op ≠ 0 → ∀ b, b ∉ handedOut s op → (step s op).isSet b = s.isSet b)) ∧
      (∀ op later op' b, b ∈ handedOut s op → (∀ o ∈ later, ¬ Covers o b) →
        b ∉ handedOut (Runs.run step (step s op) later) op') := by
  intro s
  have hs : WellCounted s := wellCounted_run memSize mem ops
  refine ⟨hs.used_eq, handedOut_bits hs, fun op later op' b hb hlater hagain => ?_⟩
  have hset : (step s op).isSet b = true := ((handedOut_bits hs op).1 b hb).2.2
  have hstep : WellCounted (step s op) := wellCounted_step s op hs
  have hkeep : (run step (step s op) later).isSet b = true :=
    run_preserves_of_avoids (B := fun o => Covers o b) (P := fun s => s.isSet b = true)
      wellCounted_step (fun _ o hw hc hP => isSet_step_of_not_covers hw o hc hP)
      _ later hstep hset hlater
  have hlast := run_invariant_of_step wellCounted_step _ later hstep
  have hclear := ((handedOut_bits hlast op').1 b hagain).2.1
  rw [hkeep] at hclear
  cases hclear

variable {s : State} {b : ℕ}

theorem allocScanBits_eq_none {i : ℕ} (fuel j : ℕ) (hj : j + fuel ≤ 32)
    (h : allocScanBits s i fuel j = none) :
    ∀ k, j ≤ k → k < j + fuel → i * 32 + k < s.maxBlocks → s.isSet (i * 32 + k) = true := by
  induction fuel generalizing j with
  | zero =>
    intro k hlo hhi
    omega
  | succ fuel ih =>
    intro k hlo hhi hk
    rw [allocScanBits] at h
    split_ifs at h with hmax hbit
    · omega
    · by_cases hkj : k = j
      · subst hkj
        have hdiv : (i * 32 + k) / 32 = i := by omega
        have hmod : (i * 32 + k) % 32 = k := by omega
        have hclear : s.bitClear (i * 32 + k) = false := by
          simpa only [State.bitClear, hdiv, hmod, not_eq_true] using hbit
        simpa only [bitClear_eq, not_eq_false'] using hclear
      · exact ih (j + 1) (by omega) h k (by omega) (by omega) hk

theorem allocScanWords_eq_none (fuel i : ℕ) (h : allocScanWords s fuel i = none) (hlo : i ≤ b / 32)
    (hhi : b / 32 < i + fuel) (hb : b < s.maxBlocks) : s.isSet b = true := by
  induction fuel generalizing i with
  | zero => omega
  | succ fuel ih =>
    have hsplit : b / 32 * 32 + b % 32 = b := by omega
    rw [allocScanWords] at h
    split_ifs at h with hfull
    · cases hbits : allocScanBits s i 32 0 with
      | some found =>
        rw [hbits] at h
        cases h
      | none =>
        rw [hbits] at h
        by_cases hword : b / 32 = i
        · have hset := allocScanBits_eq_none 32 0 (by norm_num) hbits (b % 32) (zero_le _)
            (by omega) (by omega)
          rwa [← hword, hsplit] at hset
        · exact ih (i + 1) h (by omega) (by omega)
    · by_cases hword : b / 32 = i
      · have hall : ∀ k < 32, (0xFFFFFFFF#32).getLsbD k = true := by decide
        rw [State.isSet, hword, not_not.mp hfull]
        exact hall _ (mod_lt b (by norm_num))
      · exact ih (i + 1) h (by omega) (by omega)

theorem allocBlock_of_clear (hb : b < s.maxBlocks) (hclear : s.isSet b = false) :
    ∃ c, c < s.maxBlocks ∧ s.isSet c = false ∧
      allocBlock s = (setBlock s c, u32 (c * pageSize)) := by
  unfold allocBlock
  cases hscan : allocScanWords s (bitmapWords s.maxBlocks) 0 with
  | none =>
    have hset := allocScanWords_eq_none _ 0 hscan (zero_le (b / 32))
      (by unfold bitmapWords; omega) hb
    rw [hclear] at hset
    cases hset
  | some c =>
    obtain ⟨hc, hcclear⟩ := allocScanWords_spec _ _ c hscan
    exact ⟨c, hc, hcclear, rfl⟩

/-- Repeated calls of the block allocator hand out every free page. -/
theorem exists_handedOut (h : WellCounted s) (hpos : 1 ≤ b) (hb : b < s.maxBlocks)
    (hclear : s.isSet b = false) :
    ∃ n, b ∈ handedOut (run step s (List.replicate n .allocBlock)) .allocBlock := by
  induction hfree : s.maxBlocks - (usedSet s).card using Nat.strong_induction_on generalizing s with
  | _ free ih =>
    obtain ⟨c, hc, hcclear, heq⟩ := allocBlock_of_clear hb hclear
    by_cases hcb : c = b
    · subst hcb
      have hmax := h.max_lt
      have haddr : u32 (c * pageSize) = c * pageSize :=
        u32_of_lt (by unfold pageSize; omega)
      have hret : returned s .allocBlock = c * pageSize := by rw [returned, heq, haddr]
      refine ⟨0, ?_⟩
      rw [List.replicate_zero, run_nil, handedOut, hret,
        Nat.mul_div_cancel _ (by decide : 0 < pageSize), if_neg, mem_Ico]
      · exact ⟨le_rfl, lt_succ_self c⟩
      · exact mul_ne_zero (by omega) (by decide)
    · have hstep : step s .allocBlock = setBlock s c := by rw [step, heq]
      have hnot : c ∉ usedSet s := by
        rw [mem_usedSet, hcclear]
        simp
      have hcard : (usedSet (setBlock s c)).card = (usedSet s).card + 1 := by
        rw [usedSet_setBlock hc, card_insert_of_notMem hnot]
      have hle := usedSet_card_le (setBlock s c)
      rw [setBlock_maxBlocks] at hle
      have hclear' : (setBlock s c).isSet b = false := by
        rw [isSet_setBlock, hclear, decide_eq_false fun hbc => hcb hbc.1.symm]
        rfl
      obtain ⟨n, hn⟩ := ih _ (by rw [setBlock_maxBlocks, hcard]; omega)
        (wellCounted_setBlock h c) (by rwa [setBlock_maxBlocks]) hclear' rfl
      refine ⟨n + 1, ?_⟩
      rwa [List.replicate_succ, run_cons, hstep]

def InUse (pmm : State) (f : ℕ) : Prop := f < pmm.maxBlocks ∧ pmm.isSet f = true

theorem allocBlock_table {pmm : State} (h : WellCounted pmm) :
    WellCounted (allocBlock pmm).1 ∧ (∀ f, InUse pmm f → InUse (allocBlock pmm).1 f) ∧
      (∀ f, InUse (allocBlock pmm).1 f → InUse pmm f ∨ (allocBlock pmm).2 = f * pageSize) ∧
      ((allocBlock pmm).2 ≠ 0 → ∃ b, b < 2 ^ 20 ∧ (allocBlock pmm).2 = b * pageSize ∧
        ¬ InUse pmm b ∧ InUse (allocBlock pmm).1 b) := by
  have hmax := h.max_lt
  rcases allocBlock_cases pmm with he | ⟨b, hb, hclear, he⟩
  · rw [he]
    exact ⟨h, fun _ hf => hf, fun _ hf => .inl hf, fun h0 => absurd rfl h0⟩
  · have haddr : u32 (b * pageSize) = b * pageSize := u32_of_lt (by unfold pageSize; omega)
    rw [he]
    refine ⟨wellCounted_setBlock h b, fun f hf => ⟨?_, ?_⟩, fun f hf => ?_,
      fun _ => ⟨b, hb.trans hmax, haddr, ?_, ?_⟩⟩
    · rw [setBlock_maxBlocks]
      exact hf.1
    · rw [isSet_setBlock, hf.2, Bool.true_or]
    · obtain ⟨hlt, hset⟩ := hf
      rw [setBlock_maxBlocks] at hlt
      rw [isSet_setBlock, or_eq_true, decide_eq_true_iff] at hset
      rcases hset with hset | ⟨rfl, _⟩
      · exact .inl ⟨hlt, hset⟩
      · exact .inr haddr
    · rintro ⟨_, hset⟩
      rw [hclear] at hset
      cases hset
    · refine ⟨by rwa [setBlock_maxBlocks], ?_⟩
      rw [isSet_setBlock, decide_eq_true ⟨rfl, hb⟩, Bool.or_true]

theorem inUse_freeBlock {pmm : State} {f : ℕ} (h : InUse pmm f) {ptr : BitVec 32}
    (hne : f ≠ ptr.toNat / pageSize) : InUse (freeBlock pmm ptr) f := by
  constructor
  · rw [freeBlock, unsetBlock_maxBlocks]
    exact h.1
  · rw [freeBlock, isSet_unsetBlock, h.2, decide_eq_false fun hc => hne hc.1]
    rfl

def smallPmm : State := ⟨fun _ => 1#32, 32, 1⟩

theorem wellCounted_smallPmm : WellCounted smallPmm := ⟨by decide +kernel, by decide⟩

end MicroK.Pmm
