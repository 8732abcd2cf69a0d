import MicroK.PmmRuns

/-!
# The free pages in the order of their allocation

`pmm_alloc_block` takes the first clear bit of the bitmap. So a run of calls takes the free pages
from the lowest on, and fails when there are none left.
-/

namespace MicroK.Pmm

open List Nat

variable {s : State} {b c : ℕ} {rest : List ℕ}

def freePages (s : State) : List ℕ := (List.range s.maxBlocks).filter fun b => !s.isSet b

@[simp] theorem mem_freePages : b ∈ freePages s ↔ b < s.maxBlocks ∧ s.isSet b = false := by
  simp [freePages]

theorem freePages_sorted (s : State) : (freePages s).Pairwise (· < ·) :=
  List.pairwise_lt_range.filter _

theorem allocScanBits_first {i : ℕ} (fuel j : ℕ) (hj : j + fuel ≤ 32)
    (h : allocScanBits s i fuel j = some c) :
    c < i * 32 + 32 ∧ ∀ k, j ≤ k → i * 32 + k < c → s.isSet (i * 32 + k) = true := by
  induction fuel generalizing j with
  | zero => cases h
  | succ fuel ih =>
    rw [allocScanBits] at h
    split_ifs at h with hmax hbit
    · obtain rfl : i * 32 + j = c := Option.some.inj h
      exact ⟨by omega, fun k hlo hlt => by omega⟩
    · obtain ⟨hlt, hset⟩ := ih (j + 1) (by omega) h
      refine ⟨hlt, fun k hlo hk => ?_⟩
      by_cases hkj : k = j
      · subst hkj
        have hdiv : (i * 32 + k) / 32 = i := by omega
        have hmod : (i * 32 + k) % 32 = k := by omega
        have hclear : s.bitClear (i * 32 + k) = false := by
          simpa only [State.bitClear, hdiv, hmod, Bool.not_eq_true] using hbit
        simpa only [bitClear_eq, Bool.not_eq_false'] using hclear
      · exact hset k (by omega) hk

theorem allocScanWords_first (fuel i : ℕ) (h : allocScanWords s fuel i = some c) (hlo : i ≤ b / 32)
    (hb : b < c) : s.isSet b = true := by
  have hc := (allocScanWords_spec fuel i c h).1
  induction fuel generalizing i with
  | zero => cases h
  | succ fuel ih =>
    have hsplit : b / 32 * 32 + b % 32 = b := by omega
    rw [allocScanWords] at h
    split_ifs at h with hfull
    · cases hbits : allocScanBits s i 32 0 with
      | some found =>
        rw [hbits] at h
        obtain rfl : found = c := Option.some.inj h
        obtain ⟨hlt, hset⟩ := allocScanBits_first 32 0 (by norm_num) hbits
        have hword : b / 32 = i := by omega
        have hbit := hset (b % 32) (Nat.zero_le _) (by omega)
        rwa [← hword, hsplit] at hbit
      | none =>
        rw [hbits] at h
        by_cases hword : b / 32 = i
        · have hset := allocScanBits_eq_none 32 0 (by norm_num) hbits (b % 32) (Nat.zero_le _)
            (by omega) (by omega)
          rwa [← hword, hsplit] at hset
        · exact ih (i + 1) h (by omega)
    · by_cases hword : b / 32 = i
      · have hall : ∀ k < 32, (0xFFFFFFFF#32).getLsbD k = true := by decide
        rw [State.isSet, hword, not_not.mp hfull]
        exact hall _ (mod_lt b (by norm_num))
      · exact ih (i + 1) h (by omega)

theorem allocBlock_of_full (hfree : freePages s = []) : allocBlock s = (s, 0) := by
  rcases allocBlock_cases s with he | ⟨b, hb, hclear, -⟩
  · exact he
  · have hmem : b ∈ freePages s := mem_freePages.mpr ⟨hb, hclear⟩
    rw [hfree] at hmem
    cases hmem

theorem allocBlock_of_free (hmax : s.maxBlocks < 2 ^ 20) (hfree : freePages s = b :: rest) :
    allocBlock s = (setBlock s b, b * pageSize) := by
  obtain ⟨hb, hclear⟩ := mem_freePages.mp (hfree ▸ mem_cons_self : b ∈ freePages s)
  have hsorted := freePages_sorted s
  rw [hfree, pairwise_cons] at hsorted
  unfold allocBlock
  cases hscan : allocScanWords s (bitmapWords s.maxBlocks) 0 with
  | none =>
    have hset := allocScanWords_eq_none _ 0 hscan (Nat.zero_le (b / 32))
      (by unfold bitmapWords; omega) hb
    rw [hclear] at hset
    cases hset
  | some c =>
    have hc : c ∈ freePages s := mem_freePages.mpr (allocScanWords_spec _ _ c hscan)
    have hle : ¬ b < c := by
      intro hlt
      rw [allocScanWords_first _ 0 hscan (Nat.zero_le _) hlt] at hclear
      cases hclear
    rw [hfree, mem_cons] at hc
    obtain rfl : c = b := hc.resolve_right fun hrest => hle (hsorted.1 c hrest)
    dsimp only
    rw [u32_of_lt (by unfold pageSize; omega)]

theorem freePages_setBlock (hfree : freePages s = b :: rest) :
    freePages (setBlock s b) = rest := by
  obtain ⟨hb, -⟩ := mem_freePages.mp (hfree ▸ mem_cons_self : b ∈ freePages s)
  have hsorted := freePages_sorted s
  rw [hfree, pairwise_cons] at hsorted
  have hkeep : freePages (setBlock s b) = (freePages s).filter fun f => f ≠ b := by
    rw [freePages, freePages, filter_filter, setBlock_maxBlocks]
    refine filter_congr fun f _ => ?_
    rw [isSet_setBlock]
    by_cases hfb : f = b
    · subst hfb
      simp [hb]
    · simp [hfb]
  rw [hkeep, hfree, filter_cons_of_neg (by simp)]
  exact filter_eq_self.mpr fun f hf => by
    simpa using (hsorted.1 f hf).ne'

end MicroK.Pmm
