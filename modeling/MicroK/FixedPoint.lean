import Mathlib

/-!
# Fixed-point arithmetic

Numbers with 16 fractional bits in 32-bit words. Division and square root are done bit by bit and
are exact up to rounding. A product keeps the low 32 bits of the shifted 64-bit product, so the
square of a large number loses a multiple of `2 ^ 32`, and the mean square that `tensor_rmsnorm`
takes differs from the exact one, unless the losses cancel in the division.
-/

namespace MicroK.Fixed

open Nat

def fixedMul (a b : ℤ) : ℤ := (a * b / 2 ^ 16).bmod (2 ^ 32)

def divLoop (numerator denominator : ℕ) : ℕ → ℕ → ℕ → ℕ
  | 0, quotient, _ => quotient
  | bit + 1, quotient, remainder =>
    let remainder := remainder <<< 1 % 2 ^ 64 ||| (numerator >>> bit &&& 1)
    if remainder ≥ denominator then
      divLoop numerator denominator bit (quotient ||| 1 <<< bit) (remainder - denominator)
    else divLoop numerator denominator bit quotient remainder

def divU64U32 (numerator denominator : ℕ) : ℕ :=
  if denominator = 0 then 0 else divLoop numerator denominator 64 0 0

/-- Before the bits below `bit` the loop has divided what stands above them. -/
theorem divLoop_eq {d : ℕ} (hd : 0 < d) (hd32 : d < 2 ^ 32) (n bit : ℕ) :
    divLoop n d bit (2 ^ bit * (n / 2 ^ bit / d)) (n / 2 ^ bit % d) = n / d := by
  induction bit with
  | zero => simp [divLoop]
  | succ bit ih =>
    have hhalf : n / 2 ^ (bit + 1) = n / 2 ^ bit / 2 := by
      rw [pow_succ, Nat.div_div_eq_div_mul]
    rw [divLoop, hhalf]
    generalize hN : n / 2 ^ bit = N at ih
    have hr : N / 2 % d < d := mod_lt _ hd
    have hrem : (N / 2 % d) <<< 1 % 2 ^ 64 ||| (n >>> bit &&& 1) = 2 * (N / 2 % d) + N % 2 := by
      rw [shiftLeft_eq, mod_eq_of_lt (by omega), shiftRight_eq_div_pow, hN,
        and_one_is_mod, mul_comm,
        ← two_pow_add_eq_or_of_lt (i := 1) (mod_lt N two_pos)]
    have hN2 : d * (N / 2 / d) + N / 2 % d = N / 2 := div_add_mod ..
    rw [hrem]
    split_ifs with hge
    · have hdiv : N / d = 2 * (N / 2 / d) + 1 ∧ N % d = 2 * (N / 2 % d) + N % 2 - d := by
        refine (Nat.div_mod_unique hd).mpr ⟨?_, by omega⟩
        rw [Nat.mul_add, Nat.mul_left_comm]
        omega
      have hquot : 2 ^ (bit + 1) * (N / 2 / d) ||| 1 <<< bit = 2 ^ bit * (N / d) := by
        rw [Nat.one_shiftLeft, ← Nat.two_pow_add_eq_or_of_lt (Nat.pow_lt_pow_right one_lt_two
          (lt_succ_self bit)), hdiv.1, pow_succ]
        ring
      rw [hquot, ← hdiv.2, ih]
    · have hdiv : N / d = 2 * (N / 2 / d) ∧ N % d = 2 * (N / 2 % d) + N % 2 := by
        refine (Nat.div_mod_unique hd).mpr ⟨?_, by omega⟩
        rw [Nat.mul_left_comm]
        omega
      rw [pow_succ, mul_assoc, ← hdiv.1, ← hdiv.2, ih]

theorem divU64U32_eq {n : ℕ} (hn : n < 2 ^ 64) {d : ℕ} (hd : d < 2 ^ 32) :
    divU64U32 n d = n / d := by
  unfold divU64U32
  split_ifs with hzero
  · rw [hzero, Nat.div_zero]
  · have h := divLoop_eq (pos_of_ne_zero hzero) hd n 64
    rwa [Nat.div_eq_of_lt hn, Nat.zero_div, Nat.zero_mod, Nat.mul_zero] at h

/-- Both operands are made positive first; the conversions to 32 bits and the last negation wrap. -/
def fixedDiv (a b : BitVec 32) : BitVec 32 :=
  if b = 0 then 0
  else
    let negative := decide (a.toInt < 0) != decide (b.toInt < 0)
    let numerator := if a.toInt < 0 then (-a.toInt).toNat else a.toInt.toNat
    let denominator := (if b.toInt < 0 then (-b.toInt).toNat else b.toInt.toNat) % 2 ^ 32
    let quotient := divU64U32 (numerator <<< 16 % 2 ^ 64) denominator
    if negative then -BitVec.ofNat 32 quotient else BitVec.ofNat 32 quotient

theorem toInt_ofInt_of_fits {v : ℤ} (hlow : -2 ^ 31 ≤ v) (hhigh : v < 2 ^ 31) :
    (BitVec.ofInt 32 v).toInt = v := by
  rw [BitVec.toInt_ofInt, Int.bmod_eq_of_le] <;> omega

theorem tdiv_eq_natAbs_div (x y : ℤ) : x.tdiv y =
    if decide (x < 0) != decide (y < 0) then -((x.natAbs / y.natAbs : ℕ) : ℤ)
    else (x.natAbs / y.natAbs : ℕ) := by
  have hx : x = if x < 0 then -(x.natAbs : ℤ) else x.natAbs := by omega
  have hy : y = if y < 0 then -(y.natAbs : ℤ) else y.natAbs := by omega
  conv_lhs => rw [hx, hy]
  by_cases hneg : x < 0 <;> by_cases hneg' : y < 0 <;>
    simp [hneg, hneg', Int.tdiv_neg, Int.neg_tdiv, Int.tdiv_eq_ediv_of_nonneg (abs_nonneg x)]

theorem fixedDiv_eq {a b : BitVec 32} (hb : b ≠ 0) :
    fixedDiv a b = BitVec.ofInt 32 ((a.toInt * 2 ^ 16).tdiv b.toInt) := by
  have hlow := BitVec.le_toInt a
  have hhigh := @BitVec.toInt_lt 32 a
  have hlow' := BitVec.le_toInt b
  have hhigh' := @BitVec.toInt_lt 32 b
  have habs (x : ℤ) : (if x < 0 then (-x).toNat else x.toNat) = x.natAbs := by
    split_ifs <;> omega
  have hsign : decide (a.toInt * 2 ^ 16 < 0) = decide (a.toInt < 0) := by
    rw [decide_eq_decide]
    omega
  have hquot : divU64U32 (a.toInt.natAbs <<< 16 % 2 ^ 64) (b.toInt.natAbs % 2 ^ 32) =
      (a.toInt * 2 ^ 16).natAbs / b.toInt.natAbs := by
    rw [shiftLeft_eq, mod_eq_of_lt (by omega), mod_eq_of_lt (by omega),
      divU64U32_eq (by omega) (by omega), Int.natAbs_mul]
    rfl
  rw [fixedDiv, if_neg hb]
  dsimp only
  rw [habs, habs, hquot, tdiv_eq_natAbs_div, hsign]
  split_ifs
  · rw [BitVec.ofInt_neg, BitVec.ofInt_natCast]
  · rw [BitVec.ofInt_natCast]

/-- The long division is the division, and `fixed_div` rounds the exact quotient toward zero
whenever that fits. -/
theorem division_exact :
    (∀ (n : BitVec 64) (d : BitVec 32), d ≠ 0 → divU64U32 n.toNat d.toNat = n.toNat / d.toNat) ∧
    ∀ a b : BitVec 32, b ≠ 0 → -2 ^ 31 ≤ (a.toInt * 2 ^ 16).tdiv b.toInt →
      (a.toInt * 2 ^ 16).tdiv b.toInt < 2 ^ 31 →
        (fixedDiv a b).toInt = (a.toInt * 2 ^ 16).tdiv b.toInt := by
  refine ⟨fun n d _ => divU64U32_eq n.isLt d.isLt, fun a b hb hlow hhigh => ?_⟩
  rw [fixedDiv_eq hb, toInt_ofInt_of_fits hlow hhigh]

/-- The second loop of `fixed_sqrt`, without a result where the sum of an `int` overflows. The sum
with half of `res` is smaller. -/
def sqrtLoop (x res bit : ℕ) : Option ℕ :=
  if bit = 0 then some res
  else if 2 ^ 31 ≤ res + bit then none
  else if res + bit ≤ x then sqrtLoop (x - (res + bit)) (res >>> 1 + bit) (bit >>> 2)
  else sqrtLoop x (res >>> 1) (bit >>> 2)
termination_by bit
decreasing_by all_goals rw [Nat.shiftRight_eq_div_pow]; omega

def firstBit (x bit : ℕ) : ℕ := if x < bit then firstBit x (bit >>> 2) else bit
termination_by bit
decreasing_by rw [Nat.shiftRight_eq_div_pow]; omega

def fixedSqrt (x : BitVec 32) : Option ℕ :=
  if x.toInt ≤ 0 then some 0
  else do
    let res ← sqrtLoop x.toNat 0 (firstBit x.toNat (1 <<< 30))
    if res <<< 8 < 2 ^ 31 then some (res <<< 8) else none

theorem firstBit_spec {x : ℕ} (hx : 0 < x) (m : ℕ) :
    ∃ n ≤ m, firstBit x (4 ^ m) = 4 ^ n ∧ (x < 4 ^ (m + 1) → x < 4 ^ (n + 1)) := by
  induction m with
  | zero =>
    refine ⟨0, le_rfl, ?_, id⟩
    rw [firstBit, if_neg (by omega)]
  | succ m ih =>
    rw [firstBit]
    split_ifs with hlt
    · obtain ⟨n, hn, hbit, hbelow⟩ := ih
      refine ⟨n, by omega, ?_, fun _ => hbelow hlt⟩
      rw [Nat.shiftRight_eq_div_pow, pow_succ, Nat.mul_div_cancel _ (by norm_num), hbit]
    · exact ⟨m + 1, le_rfl, rfl, id⟩

/-- With `n` bits of the root to come, `r` is the root so far, `x` what its square leaves, and `res`
the double of `r` at the place of the next bit. -/
theorem sqrtLoop_eq {x₀ : ℕ} (hx₀ : x₀ < 2 ^ 31) {n r x : ℕ} (hx : r * r + x = x₀)
    (hlt : x₀ < (r + 2 ^ n) * (r + 2 ^ n)) (hn : n ≤ 15 ∨ n = 16 ∧ r = 0) :
    sqrtLoop x (r * 2 ^ n) (4 ^ n / 4) = some (Nat.sqrt x₀) := by
  induction n generalizing r x with
  | zero =>
    have hroot : r = Nat.sqrt x₀ := eq_sqrt.2 ⟨by omega, by simpa using hlt⟩
    rw [sqrtLoop, if_pos (by norm_num), ← hroot, pow_zero, mul_one]
  | succ n ih =>
    have hfour : (4 : ℕ) ^ n = 2 ^ n * 2 ^ n := by rw [← Nat.mul_pow]
    have hbit : (4 : ℕ) ^ (n + 1) / 4 = 2 ^ n * 2 ^ n := by
      rw [pow_succ, Nat.mul_div_cancel _ (by norm_num), hfour]
    have hpos : 0 < 2 ^ n := Nat.two_pow_pos n
    have hres : r * 2 ^ (n + 1) = 2 * (r * 2 ^ n) := by ring
    have hroom : r * 2 ^ (n + 1) + 2 ^ n * 2 ^ n < 2 ^ 31 := by
      rcases hn with hn | ⟨hn, rfl⟩
      · have hr : r ≤ 46340 := by nlinarith
        have hplace : 2 ^ n ≤ 2 ^ 14 := Nat.pow_le_pow_right two_pos (by omega)
        have hprod := mul_le_mul hr hplace
        have hsquare := mul_le_mul hplace hplace
        omega
      · obtain rfl : n = 15 := by omega
        norm_num
    have hshift : (2 ^ n * 2 ^ n) >>> 2 = 4 ^ n / 4 := by
      rw [shiftRight_eq_div_pow, hfour]
    have hhalf : (r * 2 ^ (n + 1)) >>> 1 = r * 2 ^ n := by
      rw [shiftRight_eq_div_pow, hres]
      omega
    rw [sqrtLoop, hbit, if_neg (by positivity), if_neg (by omega), hshift, hhalf]
    split_ifs with hle
    · rw [← add_mul]
      refine ih ?_ ?_ (by omega)
      · rw [← hx]
        nlinarith [Nat.sub_add_cancel hle]
      · rw [pow_succ] at hlt
        linarith
    · exact ih hx (by nlinarith) (by omega)

theorem toInt_eq_toNat_of_pos {x : BitVec 32} (hx : 0 < x.toInt) :
    x.toInt = x.toNat ∧ 0 < x.toNat ∧ x.toNat < 2 ^ 31 := by
  rw [BitVec.toInt_eq_toNat_cond] at hx ⊢
  split_ifs at hx ⊢ <;> omega

theorem fixedSqrt_eq {x : BitVec 32} (hx : 0 < x.toInt) :
    fixedSqrt x = some (256 * Nat.sqrt x.toNat) := by
  obtain ⟨-, hpos, hlt⟩ := toInt_eq_toNat_of_pos hx
  obtain ⟨n, hn, hbit, hbelow⟩ := firstBit_spec hpos 15
  have hroot : Nat.sqrt x.toNat < 2 ^ 16 := sqrt_lt'.2 (by omega)
  have hloop := @sqrtLoop_eq _ hlt (n + 1) 0 x.toNat (by simp)
    (by rw [zero_add, ← mul_pow]; exact hbelow (by omega)) (by omega)
  rw [Nat.zero_mul, pow_succ, Nat.mul_div_cancel _ (by norm_num)] at hloop
  rw [fixedSqrt, if_neg (by omega), show 1 <<< 30 = 4 ^ 15 from rfl, hbit, hloop]
  simp [shiftLeft_eq]
  omega

/-- The root is exact down to the last bit of the argument, and so at most 1/256 too small. -/
theorem fixedSqrt_exact :
    (∀ x : BitVec 32, 0 < x.toInt → fixedSqrt x = some (256 * Nat.sqrt x.toNat) ∧
      ((256 * Nat.sqrt x.toNat : ℕ) / 2 ^ 16 : ℝ) ≤ √(x.toInt / 2 ^ 16) ∧
      √(x.toInt / 2 ^ 16) ≤ (256 * Nat.sqrt x.toNat : ℕ) / 2 ^ 16 + 1 / 256) ∧
    ∀ x y : BitVec 32, 0 < x.toInt → x.toInt ≤ y.toInt →
      ∀ r s, fixedSqrt x = some r → fixedSqrt y = some s → r ≤ s := by
  constructor
  · intro x hx
    have hsqrt : √(x.toInt / 2 ^ 16 : ℝ) = √x.toNat / 256 := by
      rw [(toInt_eq_toNat_of_pos hx).1, Int.cast_natCast, Real.sqrt_div (Nat.cast_nonneg _),
        show (2 : ℝ) ^ 16 = 256 ^ 2 by norm_num, Real.sqrt_sq (by norm_num)]
    have hlow := @Real.nat_sqrt_le_real_sqrt x.toNat
    have hhigh := @Real.real_sqrt_le_nat_sqrt_succ x.toNat
    refine ⟨fixedSqrt_eq hx, ?_, ?_⟩
    · rw [hsqrt]
      push_cast
      linarith
    · rw [hsqrt]
      push_cast
      linarith
  · intro x y hx hxy r s hr hs
    have hy : 0 < y.toInt := hx.trans_le hxy
    have hle : x.toNat ≤ y.toNat := by
      have := (toInt_eq_toNat_of_pos hx).1
      have := (toInt_eq_toNat_of_pos hy).1
      omega
    rw [fixedSqrt_eq hx, Option.some.injEq] at hr
    rw [fixedSqrt_eq hy, Option.some.injEq] at hs
    rw [← hr, ← hs]
    exact Nat.mul_le_mul_left _ (Nat.sqrt_le_sqrt hle)

/-- `sum_sq` after some of the elements, a signed 64-bit number. -/
def sumSquares (data : ℕ → BitVec 32) : ℕ → ℤ
  | 0 => 0
  | n + 1 => (sumSquares data n + fixedMul (data n).toInt (data n).toInt).bmod (2 ^ 64)

/-- `mean_sq` of `tensor_rmsnorm`. -/
def meanSquare (count : BitVec 32) (data : ℕ → BitVec 32) : ℤ :=
  (divU64U32 (sumSquares data count.toNat % 2 ^ 64).toNat count.toNat : ℤ).bmod (2 ^ 32)

def square (x : BitVec 32) : ℕ := x.toInt.natAbs ^ 2 / 2 ^ 16

variable (data : ℕ → BitVec 32)

def exactSum (n : ℕ) : ℕ := ∑ i ∈ Finset.range n, square (data i)

/-- How many times the squares lose `2 ^ 32`. -/
def lostWraps (n : ℕ) : ℕ :=
  ∑ i ∈ Finset.range n, (square (data i) + 2 ^ 31) / 2 ^ 32

theorem bmod_eq_sub (s : ℕ) : (s : ℤ).bmod (2 ^ 32) = s - 2 ^ 32 * ((s + 2 ^ 31) / 2 ^ 32 : ℕ) := by
  unfold Int.bmod
  dsimp only
  split_ifs <;> omega

theorem fixedMul_self (x : BitVec 32) :
    fixedMul x.toInt x.toInt = square x - 2 ^ 32 * ((square x + 2 ^ 31) / 2 ^ 32 : ℕ) := by
  rw [← bmod_eq_sub, fixedMul, square, ← Int.natAbs_mul_self, ← pow_two]
  norm_cast

/-- The sum is exact up to the losses, and no sum of fewer than `2 ^ 32` of them wraps. -/
theorem sumSquares_eq {n : ℕ} (hn : n < 2 ^ 32) :
    sumSquares data n = exactSum data n - 2 ^ 32 * lostWraps data n ∧
      -(2 ^ 31 * n) ≤ sumSquares data n ∧ sumSquares data n ≤ 2 ^ 31 * n := by
  induction n with
  | zero => simp [sumSquares, exactSum, lostWraps]
  | succ n ih =>
    obtain ⟨hsum, hlow, hhigh⟩ := ih (by omega)
    have hmul := fixedMul_self (data n)
    have hexact : sumSquares data (n + 1) =
        sumSquares data n + fixedMul (data n).toInt (data n).toInt := by
      rw [sumSquares, Int.bmod_eq_of_le] <;> omega
    have hall : exactSum data (n + 1) = exactSum data n + square (data n) :=
      Finset.sum_range_succ ..
    have hlost : lostWraps data (n + 1) = lostWraps data n + (square (data n) + 2 ^ 31) / 2 ^ 32 :=
      Finset.sum_range_succ ..
    refine ⟨?_, ?_, ?_⟩
    · rw [hexact, hsum, hmul, hall, hlost]
      push_cast
      ring
    · rw [hexact]
      omega
    · rw [hexact]
      omega

theorem lostWraps_le (n : ℕ) :
    2 ^ 31 * lostWraps data n ≤ exactSum data n := by
  rw [lostWraps, Finset.mul_sum]
  refine Finset.sum_le_sum fun i _ => ?_
  omega

theorem bmod_eq_iff {c q d : ℕ} (hq : q < 2 ^ 31) (hd : d < 2 ^ 32) :
    ((2 ^ 32 * c + q + d : ℕ) : ℤ).bmod (2 ^ 32) = q ↔ d = 0 := by
  unfold Int.bmod
  dsimp only
  split_ifs <;> omega

/-- The division of a sum that is `2 ^ 32 * k` too small, as an unsigned number. -/
theorem div_short_iff {n s k : ℕ} (hn : 0 < n) (hn32 : n < 2 ^ 32) (hfit : s / n < 2 ^ 31)
    (hk : 2 ^ 31 * k ≤ s) :
    (((((s : ℤ) - 2 ^ 32 * k) % 2 ^ 64).toNat / n : ℕ) : ℤ).bmod (2 ^ 32) = (s / n : ℕ) ↔
      k = 0 ∨ s < 2 ^ 32 * k ∧ n ∣ 2 ^ 32 - k := by
  have hs : s < 2 ^ 31 * n := (div_lt_iff_lt_mul hn).mp hfit
  by_cases hneg : s < 2 ^ 32 * k
  · have hvalue : (((s : ℤ) - 2 ^ 32 * k) % 2 ^ 64).toNat = s + 2 ^ 32 * (2 ^ 32 - k) := by omega
    have hm := div_add_mod (2 ^ 32 - k) n
    have hsum := div_add_mod s n
    have he := mod_lt (2 ^ 32 - k) hn
    have hr := mod_lt s hn
    rw [hvalue, dvd_iff_mod_eq_zero]
    generalize (2 ^ 32 - k) / n = c at *
    generalize (2 ^ 32 - k) % n = e at *
    generalize s / n = q at *
    generalize s % n = r at *
    have hdiv : (s + 2 ^ 32 * (2 ^ 32 - k)) / n = 2 ^ 32 * c + q + (2 ^ 32 * e + r) / n := by
      rw [← hm, ← hsum, show n * q + r + 2 ^ 32 * (n * c + e) =
        2 ^ 32 * e + r + n * (2 ^ 32 * c + q) by ring, add_mul_div_left _ _ hn, add_comm]
    have hsmall : (2 ^ 32 * e + r) / n < 2 ^ 32 := Nat.div_lt_of_lt_mul (by nlinarith)
    have hzero : (2 ^ 32 * e + r) / n = 0 ↔ e = 0 := by
      rw [Nat.div_eq_zero_iff]
      omega
    rw [hdiv, bmod_eq_iff hfit hsmall, hzero]
    omega
  · have hvalue : (((s : ℤ) - 2 ^ 32 * k) % 2 ^ 64).toNat = s - 2 ^ 32 * k := by omega
    have hle : (s - 2 ^ 32 * k) / n ≤ s / n := Nat.div_le_div_right (Nat.sub_le ..)
    have hself := @bmod_eq_iff 0 ((s - 2 ^ 32 * k) / n) 0 (by omega) (by norm_num)
    rw [hvalue, show (((s - 2 ^ 32 * k) / n : ℕ) : ℤ).bmod (2 ^ 32) = ((s - 2 ^ 32 * k) / n : ℕ) by
      simpa using hself.mpr rfl, Nat.cast_inj]
    rcases Nat.eq_zero_or_pos k with rfl | hpos
    · simp
    · have hless : (s - 2 ^ 32 * k) / n + 1 ≤ s / n := by
        rw [← add_div_right _ hn]
        exact Nat.div_le_div_right (by omega)
      omega

/-- Whenever the exact mean fits in a word, the mean square is exact if and only if no square wraps
or the lost multiple of `2 ^ 32` makes the sum negative and cancels in the division. -/
theorem meanSquare_exact_iff (count : BitVec 32) (data : ℕ → BitVec 32) :
    (exactSum data count.toNat / count.toNat < 2 ^ 31 →
      meanSquare count data = (exactSum data count.toNat / count.toNat : ℕ)) ↔
    (exactSum data count.toNat / count.toNat < 2 ^ 31 → lostWraps data count.toNat = 0 ∨
      exactSum data count.toNat < 2 ^ 32 * lostWraps data count.toNat ∧
        count.toNat ∣ 2 ^ 32 - lostWraps data count.toNat) := by
  refine imp_congr_right fun hfit => ?_
  rcases Nat.eq_zero_or_pos count.toNat with hzero | hpos
  · unfold meanSquare
    rw [hzero, divU64U32, if_pos rfl, Nat.div_zero]
    exact iff_of_true rfl (.inl rfl)
  · have hlt : count.toNat < 2 ^ 32 := count.isLt
    have hword : (sumSquares data count.toNat % 2 ^ 64).toNat < 2 ^ 64 := by omega
    unfold meanSquare
    rw [divU64U32_eq hword hlt, (sumSquares_eq data hlt).1]
    exact div_short_iff hpos hlt hfit (lostWraps_le data _)

/-- One square of `2 ^ 32` among four elements: the mean should be `2 ^ 30` and is 0. -/
theorem meanSquare_lost : meanSquare 4 (fun i => if i = 0 then 0x1000000 else 0) = 0 ∧
    exactSum (fun i => if i = 0 then 0x1000000 else 0) 4 / 4 = 2 ^ 30 := by
  decide +kernel

end MicroK.Fixed
