import Mathlib.Tactic
import Mathlib.Data.Nat.Bitwise
import Mathlib.Data.BitVec

/-!
# Fixed-width arithmetic on natural numbers

C scalars are natural numbers, reduced by `u32` where an operation can wrap. A test of one bit
through a shifted mask reads that bit, setting or clearing it through the mask changes no other
bit, and masking off the low bits of an address rounds it down.
-/

namespace MicroK

def u32 (n : ℕ) : ℕ := n % 2 ^ 32

theorem u32_lt (n : ℕ) : u32 n < 2 ^ 32 := Nat.mod_lt _ (by norm_num)

theorem u32_of_lt {n : ℕ} (h : n < 2 ^ 32) : u32 n = n := Nat.mod_eq_of_lt h

def sub32 (a b : ℕ) : ℕ := u32 (a + (2 ^ 32 - b))

theorem sub32_of_le {a b : ℕ} (hb : b ≤ a) (ha : a < 2 ^ 32) : sub32 a b = a - b := by
  unfold sub32 u32
  omega

theorem toNat_pos_of_ne_zero {w : ℕ} {v : BitVec w} (h : v ≠ 0) : 0 < v.toNat := by
  rw [Nat.pos_iff_ne_zero]
  intro h0
  exact h (BitVec.eq_of_toNat_eq (by simpa using h0))

def bitMask (k : ℕ) : BitVec 32 := 1#32 <<< k

theorem getLsbD_bitMask {k i : ℕ} (hk : k < 32) :
    (bitMask k).getLsbD i = decide (i = k) := by
  unfold bitMask
  by_cases hik : i = k
  · subst hik
    simp [hk]
  · by_cases hlt : i < k
    · simp [hik, hlt]
    · have hsub : i - k ≠ 0 := by omega
      simp [hik, hsub]

variable (w : BitVec 32)

theorem and_bitMask_eq_zero_iff {k : ℕ} (hk : k < 32) :
    w &&& bitMask k = 0#32 ↔ w.getLsbD k = false := by
  constructor
  · intro h
    have hb := congrArg (fun v : BitVec 32 => v.getLsbD k) h
    simpa [BitVec.getLsbD_and, getLsbD_bitMask hk] using hb
  · intro h
    apply BitVec.eq_of_getLsbD_eq
    intro i _
    rw [BitVec.getLsbD_and, getLsbD_bitMask hk]
    by_cases hik : i = k
    · subst hik
      simp [h]
    · simp [hik]

theorem getLsbD_or_bitMask {k : ℕ} (hk : k < 32) (i : ℕ) :
    (w ||| bitMask k).getLsbD i = (decide (i = k) || w.getLsbD i) := by
  rw [BitVec.getLsbD_or, getLsbD_bitMask hk, Bool.or_comm]

theorem getLsbD_and_not_bitMask {k i : ℕ} (hk : k < 32) (hi : i < 32) :
    (w &&& ~~~ bitMask k).getLsbD i = (!decide (i = k) && w.getLsbD i) := by
  rw [BitVec.getLsbD_and, BitVec.getLsbD_not, getLsbD_bitMask hk, Bool.and_comm]
  simp [hi]

theorem and_high_mask_width {w n k : ℕ} (hn : n < 2 ^ w) (hk : k ≤ w) :
    n &&& (2 ^ w - 2 ^ k) = n / 2 ^ k * 2 ^ k := by
  have hmask : 2 ^ w - 2 ^ k = (2 ^ (w - k) - 1) * 2 ^ k := by
    rw [Nat.sub_mul, one_mul, ← pow_add, Nat.sub_add_cancel hk]
  apply Nat.eq_of_testBit_eq
  intro i
  rw [hmask, Nat.testBit_and, Nat.testBit_mul_two_pow, Nat.testBit_mul_two_pow,
    Nat.testBit_div_two_pow, Nat.testBit_two_pow_sub_one]
  by_cases hki : k ≤ i
  · rw [Nat.sub_add_cancel hki]
    by_cases hi : i < w
    · have hlt : i - k < w - k := by omega
      simp [hki, hlt]
    · have hbit : n.testBit i = false :=
        Nat.testBit_eq_false_of_lt (hn.trans_le (Nat.pow_le_pow_right (by norm_num) (by omega)))
      simp [hbit]
  · simp [hki]

theorem and_high_mask {n k : ℕ} (hn : n < 2 ^ 32) (hk : k ≤ 32) :
    n &&& (2 ^ 32 - 2 ^ k) = n / 2 ^ k * 2 ^ k := and_high_mask_width hn hk

end MicroK
