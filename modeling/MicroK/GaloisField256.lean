import Mathlib

/-!
# The field with 256 elements, on bytes

A byte stands for the polynomial over the integers modulo 2 whose coefficients are its bits, taken
modulo `x⁸ + x⁴ + x³ + x + 1`. The sum of two bytes is their exclusive or. Every element is given by
exactly one byte, so the product of two bytes is a byte as well.
-/

noncomputable section

namespace MicroK.Gf256

open Polynomial Nat

def modulus : (ZMod 2)[X] := X ^ 8 + X ^ 4 + X ^ 3 + X + 1

/-- The polynomial of degree below 8 with the bits of a number as coefficients. -/
def bitsPoly (n : ℕ) : (ZMod 2)[X] := ∑ i ∈ Finset.range 8, if n.testBit i then X ^ i else 0

def toPoly (b : UInt8) : (ZMod 2)[X] := bitsPoly b.toNat

def ofPoly (p : (ZMod 2)[X]) : UInt8 := UInt8.ofNat (Nat.ofBits fun i : Fin 8 => p.coeff i = 1)

def element (b : UInt8) : AdjoinRoot modulus := AdjoinRoot.mk modulus (toPoly b)

def mul (a b : UInt8) : UInt8 := ofPoly ((toPoly a * toPoly b) %ₘ modulus)

theorem degree_modulus : modulus.degree = 8 := by
  unfold modulus
  compute_degree!

theorem monic_modulus : modulus.Monic := by
  unfold modulus
  monicity!

theorem coeff_bitsPoly (n i : ℕ) : (bitsPoly n).coeff i = if i < 8 ∧ n.testBit i then 1 else 0 := by
  unfold bitsPoly
  rw [finsetSum_coeff]
  have hterm : ∀ j, ((if n.testBit j then X ^ j else 0 : (ZMod 2)[X]).coeff i) =
      if i = j then (if n.testBit j then 1 else 0) else 0 := by
    intro j
    by_cases hj : n.testBit j = true
    · simp only [hj, if_true, coeff_X_pow]
    · simp [hj]
  simp only [hterm, Finset.sum_ite_eq, Finset.mem_range]
  by_cases hi : i < 8 <;> simp [hi]

theorem degree_bitsPoly_lt (n : ℕ) : (bitsPoly n).degree < modulus.degree := by
  rw [degree_modulus]
  refine (degree_lt_iff_coeff_zero _ 8).mpr fun i hi => ?_
  rw [coeff_bitsPoly, if_neg (by omega)]

variable (b : UInt8)

theorem coeff_toPoly (i : ℕ) :
    (toPoly b).coeff i = if i < 8 ∧ b.toNat.testBit i then 1 else 0 := coeff_bitsPoly _ i

theorem ofPoly_toPoly : ofPoly (toPoly b) = b := by
  have hbits : (fun i : Fin 8 => decide ((toPoly b).coeff i = 1)) =
      fun i : Fin 8 => b.toNat.testBit i := by
    funext i
    rw [coeff_toPoly]
    by_cases hbit : b.toNat.testBit i = true
    · simp [hbit]
    · simp [hbit]
  rw [ofPoly, hbits, ofBits_testBit, mod_eq_of_lt b.toNat_lt, UInt8.ofNat_toNat]

theorem toPoly_ofPoly {p : (ZMod 2)[X]} (hp : p.degree < modulus.degree) :
    toPoly (ofPoly p) = p := by
  ext i
  have hlt := ofBits_lt_two_pow fun i : Fin 8 => decide (p.coeff i = 1)
  rw [coeff_toPoly, ofPoly, UInt8.toNat_ofNat', mod_eq_of_lt hlt]
  by_cases hi : i < 8
  · rw [testBit_ofBits_lt _ _ hi]
    have htwo : ∀ c : ZMod 2, c = 0 ∨ c = 1 := by decide
    rcases htwo (p.coeff i) with hc | hc <;> simp [hc, hi]
  · rw [degree_modulus] at hp
    rw [if_neg (by tauto), (degree_lt_iff_coeff_zero p 8).mp hp i (by omega)]

theorem element_injective : Function.Injective element := by
  intro a b h
  have hdegree : (toPoly a - toPoly b).degree < modulus.degree :=
    (degree_sub_le _ _).trans_lt (max_lt (degree_bitsPoly_lt _) (degree_bitsPoly_lt _))
  have hzero := eq_zero_of_dvd_of_degree_lt (AdjoinRoot.mk_eq_mk.mp h) hdegree
  rw [← ofPoly_toPoly a, ← ofPoly_toPoly b, sub_eq_zero.mp hzero]

theorem element_mul (a b : UInt8) : element (mul a b) = element a * element b := by
  unfold element mul
  rw [toPoly_ofPoly (degree_modByMonic_lt _ monic_modulus), ← map_mul, AdjoinRoot.mk_eq_mk]
  have hdiv := modByMonic_add_div (toPoly a * toPoly b) modulus
  exact ⟨-((toPoly a * toPoly b) /ₘ modulus), by linear_combination hdiv⟩

theorem element_zero : element 0 = 0 := by
  simp [element, toPoly, bitsPoly]

theorem element_one : element 1 = 1 := by
  have hone : toPoly 1 = 1 := by
    ext i
    have hbit : (1 : UInt8).toNat.testBit i = decide (i = 0) := by
      cases i with
      | zero => rfl
      | succ i => simp [testBit_succ]
    rw [coeff_toPoly, coeff_one, hbit]
    by_cases hi : i = 0 <;> simp [hi]
  rw [element, hone, map_one]

theorem element_xor (a b : UInt8) : element (a ^^^ b) = element a + element b := by
  rw [element, element, element, ← map_add]
  apply congrArg _
  ext i
  rw [coeff_add, coeff_toPoly, coeff_toPoly, coeff_toPoly, UInt8.toNat_xor, testBit_xor]
  have hone : (1 : ZMod 2) + 1 = 0 := by decide
  by_cases hi : i < 8 <;> cases a.toNat.testBit i <;> cases b.toNat.testBit i <;> simp [hi, hone]

def xtimes (b : UInt8) : UInt8 := (b <<< 1) ^^^ (if b &&& 0x80 ≠ 0 then 0x1B else 0)

theorem xtimes_bits : ∀ i < 9,
    xor (1 ≤ i && b.toNat.testBit (i - 1)) (i < 8 && (xtimes b).toNat.testBit i) =
      (b &&& 0x80 != 0 && Nat.testBit 0x11B i) := by
  have hall : ∀ n < 256, ∀ i < 9, xor (1 ≤ i && (UInt8.ofNat n).toNat.testBit (i - 1))
      (i < 8 && (xtimes (UInt8.ofNat n)).toNat.testBit i) =
        (UInt8.ofNat n &&& 0x80 != 0 && Nat.testBit 0x11B i) := by decide +kernel
  have hb := hall b.toNat b.toNat_lt
  rwa [UInt8.ofNat_toNat] at hb

theorem coeff_modulus (i : ℕ) : modulus.coeff i = if Nat.testBit 0x11B i then 1 else 0 := by
  by_cases hi : i < 9
  · interval_cases i <;> simp [modulus, coeff_X, coeff_one] <;> decide
  · have hbit : Nat.testBit 0x11B i = false := by
      apply Nat.testBit_lt_two_pow
      exact lt_of_lt_of_le (by norm_num) (Nat.pow_le_pow_right (by norm_num) (Nat.not_lt.mp hi))
    rw [coeff_eq_zero_of_degree_lt, hbit]
    · rfl
    · rw [degree_modulus]
      exact_mod_cast Nat.not_lt.mp hi

theorem coeff_X_mul_toPoly (i : ℕ) :
    (X * toPoly b).coeff i = if i < 9 ∧ 1 ≤ i ∧ b.toNat.testBit (i - 1) then 1 else 0 := by
  cases i with
  | zero => simp
  | succ i =>
    rw [coeff_X_mul, coeff_toPoly]
    simp [succ_lt_succ_iff]

theorem toPoly_xtimes :
    X * toPoly b + toPoly (xtimes b) = if b &&& 0x80 ≠ 0 then modulus else 0 := by
  ext i
  rw [coeff_add, coeff_X_mul_toPoly, coeff_toPoly]
  have hone : (1 : ZMod 2) + 1 = 0 := by decide
  have hcoeff : (if b &&& 0x80 ≠ 0 then modulus else 0).coeff i =
      if (b &&& 0x80 != 0 && Nat.testBit 0x11B i) then 1 else 0 := by
    by_cases htop : b &&& 0x80 ≠ 0
    · simp [htop, coeff_modulus]
    · simp [htop]
  rw [hcoeff]
  by_cases hi : i < 9
  · rw [← xtimes_bits b i hi]
    cases b.toNat.testBit (i - 1) <;> cases (xtimes b).toNat.testBit i <;>
      by_cases h1 : 1 ≤ i <;> by_cases h8 : i < 8 <;> simp [hi, h1, h8, hone]
  · have hbit : Nat.testBit 0x11B i = false := by
      apply Nat.testBit_lt_two_pow
      exact lt_of_lt_of_le (by norm_num) (Nat.pow_le_pow_right (by norm_num) (Nat.not_lt.mp hi))
    simp [hi, hbit, show ¬ i < 8 by omega]

theorem add_self (x : AdjoinRoot modulus) : x + x = 0 := by
  have hone : (1 : (ZMod 2)[X]) + 1 = 0 := by
    rw [← C_1, ← C_add, show (1 : ZMod 2) + 1 = 0 by decide, C_0]
  have htwo : (1 : AdjoinRoot modulus) + 1 = 0 := by
    rw [← map_one (AdjoinRoot.mk modulus), ← map_add, hone, map_zero]
  rw [← one_mul x, ← add_mul, htwo, zero_mul]

theorem element_xtimes : element (xtimes b) = AdjoinRoot.root modulus * element b := by
  have hsum : AdjoinRoot.root modulus * element b + element (xtimes b) = 0 := by
    have h := congrArg (AdjoinRoot.mk modulus) (toPoly_xtimes b)
    apply h.trans
    split_ifs
    · exact AdjoinRoot.mk_self
    · exact map_zero _
  calc element (xtimes b)
      = AdjoinRoot.root modulus * element b + element (xtimes b) +
          AdjoinRoot.root modulus * element b := by
        linear_combination -add_self (AdjoinRoot.root modulus * element b)
    _ = _ := by rw [hsum, zero_add]

theorem element_shiftRight :
    element b = AdjoinRoot.root modulus * element (b >>> 1) + if b &&& 1 ≠ 0 then 1 else 0 := by
  have hall : ∀ n < 256, ∀ i < 9, ((i < 8 && (UInt8.ofNat n).toNat.testBit i) : Bool) =
      xor (1 ≤ i && (UInt8.ofNat n >>> 1).toNat.testBit (i - 1))
        (i == 0 && UInt8.ofNat n &&& 1 != 0) := by decide +kernel
  have hbits := hall b.toNat b.toNat_lt
  rw [UInt8.ofNat_toNat] at hbits
  have hpoly : toPoly b = X * toPoly (b >>> 1) + if b &&& 1 ≠ 0 then 1 else 0 := by
    ext i
    rw [coeff_add, coeff_X_mul_toPoly, coeff_toPoly]
    have hcoeff : (if b &&& 1 ≠ 0 then (1 : (ZMod 2)[X]) else 0).coeff i =
        if (i == 0 && b &&& 1 != 0) then 1 else 0 := by
      by_cases hlow : b &&& 1 ≠ 0
      · simp [hlow, coeff_one]
      · simp [hlow]
    rw [hcoeff]
    by_cases hi : i < 9
    · have h := hbits i hi
      generalize b.toNat.testBit i = p, (b >>> 1).toNat.testBit (i - 1) = q, (b &&& 1 != 0) = r
        at h ⊢
      rcases Nat.eq_zero_or_pos i with rfl | hpos
      · simp at h
        simp [h]
      · have hone : 1 ≤ i := hpos
        have hzero : (i == 0) = false := beq_false_of_ne hpos.ne'
        simp only [hone, hzero, decide_true, Bool.true_and, Bool.false_and, Bool.xor_false] at h ⊢
        by_cases h8 : i < 8
        · rw [decide_eq_true h8, Bool.true_and] at h
          simp [h8, hi, h]
        · simpa [h8, hi] using h
    · simp [hi, show ¬ i < 8 by omega, show i ≠ 0 by omega]
  rw [element, hpoly, map_add, map_mul, AdjoinRoot.mk_X, ← element]
  apply congrArg _
  split_ifs
  · exact map_one _
  · exact map_zero _

theorem inverse_unique {a b c : UInt8} (hb : mul a b = 1) (hc : mul a c = 1) : b = c := by
  apply element_injective
  have hb' : element a * element b = 1 := by rw [← element_mul, hb, element_one]
  have hc' : element a * element c = 1 := by rw [← element_mul, hc, element_one]
  calc element b = element b * (element a * element c) := by rw [hc', mul_one]
    _ = element a * element b * element c := by ring
    _ = element c := by rw [hb', one_mul]

end MicroK.Gf256

end
