import Mathlib.Data.UInt
import MicroK.Wpa2Crypto

/-!
# Unwrapping the group key

`wpa2_aes_key_unwrap` runs the steps of the key wrap backwards: it walks the 64-bit registers from
the last to the first six times. A step of the unwrapping undoes the step of the wrapping with the
same number, so unwrapping what was wrapped under the same key gives it back.
-/

namespace MicroK.Wpa2

open List Option

abbrev Block := Fin 16 → UInt8

def aesInverseSbox : List UInt8 := [
  0x52, 0x09, 0x6a, 0xd5, 0x30, 0x36, 0xa5, 0x38, 0xbf, 0x40, 0xa3, 0x9e, 0x81, 0xf3, 0xd7, 0xfb,
  0x7c, 0xe3, 0x39, 0x82, 0x9b, 0x2f, 0xff, 0x87, 0x34, 0x8e, 0x43, 0x44, 0xc4, 0xde, 0xe9, 0xcb,
  0x54, 0x7b, 0x94, 0x32, 0xa6, 0xc2, 0x23, 0x3d, 0xee, 0x4c, 0x95, 0x0b, 0x42, 0xfa, 0xc3, 0x4e,
  0x08, 0x2e, 0xa1, 0x66, 0x28, 0xd9, 0x24, 0xb2, 0x76, 0x5b, 0xa2, 0x49, 0x6d, 0x8b, 0xd1, 0x25,
  0x72, 0xf8, 0xf6, 0x64, 0x86, 0x68, 0x98, 0x16, 0xd4, 0xa4, 0x5c, 0xcc, 0x5d, 0x65, 0xb6, 0x92,
  0x6c, 0x70, 0x48, 0x50, 0xfd, 0xed, 0xb9, 0xda, 0x5e, 0x15, 0x46, 0x57, 0xa7, 0x8d, 0x9d, 0x84,
  0x90, 0xd8, 0xab, 0x00, 0x8c, 0xbc, 0xd3, 0x0a, 0xf7, 0xe4, 0x58, 0x05, 0xb8, 0xb3, 0x45, 0x06,
  0xd0, 0x2c, 0x1e, 0x8f, 0xca, 0x3f, 0x0f, 0x02, 0xc1, 0xaf, 0xbd, 0x03, 0x01, 0x13, 0x8a, 0x6b,
  0x3a, 0x91, 0x11, 0x41, 0x4f, 0x67, 0xdc, 0xea, 0x97, 0xf2, 0xcf, 0xce, 0xf0, 0xb4, 0xe6, 0x73,
  0x96, 0xac, 0x74, 0x22, 0xe7, 0xad, 0x35, 0x85, 0xe2, 0xf9, 0x37, 0xe8, 0x1c, 0x75, 0xdf, 0x6e,
  0x47, 0xf1, 0x1a, 0x71, 0x1d, 0x29, 0xc5, 0x89, 0x6f, 0xb7, 0x62, 0x0e, 0xaa, 0x18, 0xbe, 0x1b,
  0xfc, 0x56, 0x3e, 0x4b, 0xc6, 0xd2, 0x79, 0x20, 0x9a, 0xdb, 0xc0, 0xfe, 0x78, 0xcd, 0x5a, 0xf4,
  0x1f, 0xdd, 0xa8, 0x33, 0x88, 0x07, 0xc7, 0x31, 0xb1, 0x12, 0x10, 0x59, 0x27, 0x80, 0xec, 0x5f,
  0x60, 0x51, 0x7f, 0xa9, 0x19, 0xb5, 0x4a, 0x0d, 0x2d, 0xe5, 0x7a, 0x9f, 0x93, 0xc9, 0x9c, 0xef,
  0xa0, 0xe0, 0x3b, 0x4d, 0xae, 0x2a, 0xf5, 0xb0, 0xc8, 0xeb, 0xbb, 0x3c, 0x83, 0x53, 0x99, 0x61,
  0x17, 0x2b, 0x04, 0x7e, 0xba, 0x77, 0xd6, 0x26, 0xe1, 0x69, 0x14, 0x63, 0x55, 0x21, 0x0c, 0x7d]

def inverseSbox (b : UInt8) : UInt8 := aesInverseSbox.getD b.toNat 0

def aesForwardSbox (value : UInt8) : UInt8 := UInt8.ofNat (aesInverseSbox.idxOf value)

def aesDouble (a : UInt8) : UInt8 := (a <<< 1) ^^^ (if a &&& 0x80 ≠ 0 then 0x1B else 0)

def aesMultiplyLoop : ℕ → UInt8 → UInt8 → UInt8 → UInt8
  | 0, _, _, result => result
  | n + 1, a, b, result =>
    if b = 0 then result
    else aesMultiplyLoop n (aesDouble a) (b >>> 1) (if b &&& 1 ≠ 0 then result ^^^ a else result)

/-- A byte has eight bits, so eight rounds empty `b`. -/
def aesMultiply (a b : UInt8) : UInt8 := aesMultiplyLoop 8 a b 0

def aesRcon : List UInt8 := [0x01, 0x02, 0x04, 0x08, 0x10, 0x20, 0x40, 0x80, 0x1b, 0x36]

def aesExpandWords (key : List UInt8) : ℕ → List UInt8
  | 0 => key
  | n + 1 =>
    let roundKeys := aesExpandWords key n
    let generated := 16 + 4 * n
    let last := fun i => roundKeys.getD (generated - 4 + i) 0
    let temp := if generated % 16 = 0
      then [aesForwardSbox (last 1) ^^^ aesRcon.getD (n / 4) 0, aesForwardSbox (last 2),
        aesForwardSbox (last 3), aesForwardSbox (last 0)]
      else [last 0, last 1, last 2, last 3]
    roundKeys ++ (List.range 4).map fun i =>
      roundKeys.getD (generated - 16 + i) 0 ^^^ temp.getD i 0

variable (key : List UInt8)

def aesExpandKey : List UInt8 := aesExpandWords key 40

def aesAddRoundKey (roundKeys : List UInt8) (round : ℕ) (s : Block) : Block :=
  fun i => s i ^^^ roundKeys.getD (round * 16 + i) 0

variable (s : Block)

local instance block_neZero : NeZero 16 := ⟨by decide⟩

def aesInverseShiftRows : Block :=
  ![s 0, s 13, s 10, s 7, s 4, s 1, s 14, s 11, s 8, s 5, s 2, s 15, s 12, s 9, s 6, s 3]

def aesShiftRows : Block :=
  ![s 0, s 5, s 10, s 15, s 4, s 9, s 14, s 3, s 8, s 13, s 2, s 7, s 12, s 1, s 6, s 11]

def aesInverseSubBytes : Block := fun i => inverseSbox (s i)

def aesSubBytes : Block := fun i => aesForwardSbox (s i)

variable (k₀ k₁ k₂ k₃ a b d e : UInt8)

def aesRow : UInt8 :=
  aesMultiply a k₀ ^^^ aesMultiply b k₁ ^^^ aesMultiply d k₂ ^^^ aesMultiply e k₃

def aesColumn (c : Fin 4) : Fin 4 → UInt8 := fun r => s ⟨c * 4 + r, by omega⟩

def mapColumns (f : (Fin 4 → UInt8) → Fin 4 → UInt8) (s : Block) : Block :=
  fun i => f (aesColumn s ⟨i / 4, by omega⟩) ⟨i % 4, by omega⟩

def aesInverseMixColumns : Block → Block := mapColumns fun p =>
  ![aesRow 14 11 13 9 (p 0) (p 1) (p 2) (p 3), aesRow 9 14 11 13 (p 0) (p 1) (p 2) (p 3),
    aesRow 13 9 14 11 (p 0) (p 1) (p 2) (p 3), aesRow 11 13 9 14 (p 0) (p 1) (p 2) (p 3)]

def aesMixColumns : Block → Block := mapColumns fun p =>
  ![aesRow 2 3 1 1 (p 0) (p 1) (p 2) (p 3), aesRow 1 2 3 1 (p 0) (p 1) (p 2) (p 3),
    aesRow 1 1 2 3 (p 0) (p 1) (p 2) (p 3), aesRow 3 1 1 2 (p 0) (p 1) (p 2) (p 3)]

def aesDecryptRounds (roundKeys : List UInt8) : ℕ → Block → Block
  | 0, s => s
  | round + 1, s => aesDecryptRounds roundKeys round (aesInverseMixColumns
      (aesAddRoundKey roundKeys (round + 1) (aesInverseSubBytes (aesInverseShiftRows s))))

def aes128Decrypt (input : Block) : Block :=
  let roundKeys := aesExpandKey key
  let s := aesDecryptRounds roundKeys 9 (aesAddRoundKey roundKeys 10 input)
  aesAddRoundKey roundKeys 0 (aesInverseSubBytes (aesInverseShiftRows s))

def aesEncryptRounds (roundKeys : List UInt8) : ℕ → Block → Block
  | 0, s => s
  | round + 1, s => aesAddRoundKey roundKeys (round + 1)
      (aesMixColumns (aesShiftRows (aesSubBytes (aesEncryptRounds roundKeys round s))))

def aes128Encrypt (input : Block) : Block :=
  let roundKeys := aesExpandKey key
  let s := aesEncryptRounds roundKeys 9 (aesAddRoundKey roundKeys 0 input)
  aesAddRoundKey roundKeys 10 (aesShiftRows (aesSubBytes s))

theorem forall_byte {p : UInt8 → Prop} [DecidablePred p]
    (h : (List.range 256).all (fun n => decide (p (UInt8.ofNat n))) = true) (b : UInt8) : p b := by
  have hb : p (UInt8.ofNat b.toNat) := by
    simpa using all_eq_true.mp h b.toNat (mem_range.mpr b.toNat_lt)
  rwa [UInt8.ofNat_toNat] at hb

theorem mem_of_testBit_foldl {l : List ℕ} {m i : ℕ}
    (h : (l.foldl (fun m n => m ||| 2 ^ n) m).testBit i = true) : i ∈ l ∨ m.testBit i = true := by
  induction l generalizing m with
  | nil => exact .inr h
  | cons n l ih =>
    rcases ih h with hmem | hbit
    · exact .inl (.tail _ hmem)
    · rw [Nat.testBit_or, Nat.testBit_two_pow, Bool.or_eq_true, decide_eq_true_iff] at hbit
      rcases hbit with hm | rfl
      · exact .inr hm
      · exact .inl mem_cons_self

/-- Every byte occurs in the inverse table: the set of its entries has all 256 bits. -/
theorem mem_aesInverseSbox (b : UInt8) : b ∈ aesInverseSbox := by
  have hall : (aesInverseSbox.map UInt8.toNat).foldl (fun m n => m ||| 2 ^ n) 0 = 2 ^ 256 - 1 := by
    decide +kernel
  have hbit : ((aesInverseSbox.map UInt8.toNat).foldl (fun m n => m ||| 2 ^ n) 0).testBit b.toNat =
      true := by
    rw [hall, Nat.testBit_two_pow_sub_one, decide_eq_true_iff]
    exact b.toNat_lt
  rcases mem_of_testBit_foldl hbit with hmem | hzero
  · obtain ⟨c, hc, hcb⟩ := mem_map.mp hmem
    exact UInt8.toNat_inj.mp hcb ▸ hc
  · simp at hzero

theorem inverseSbox_forward (b : UInt8) : inverseSbox (aesForwardSbox b) = b := by
  have hlt := idxOf_lt_length_of_mem (mem_aesInverseSbox b)
  have hlength : aesInverseSbox.length = 256 := by decide +kernel
  have hidx : (UInt8.ofNat (aesInverseSbox.idxOf b)).toNat = aesInverseSbox.idxOf b :=
    UInt8.toNat_ofNat_of_lt (hlt.trans_eq hlength)
  rw [inverseSbox, aesForwardSbox, hidx, getD_eq_getElem?_getD, getElem?_eq_getElem hlt,
    getD_some, getElem_idxOf hlt]

theorem and_xor_distrib_byte (a b c : UInt8) : (a ^^^ b) &&& c = (a &&& c) ^^^ (b &&& c) := by
  apply UInt8.eq_of_toBitVec_eq
  ext i
  simp [Bool.and_xor_distrib_right]

theorem aesDouble_xor (a b : UInt8) : aesDouble (a ^^^ b) = aesDouble a ^^^ aesDouble b := by
  have hbit : ∀ c : UInt8, c &&& 0x80 = 0 ∨ c &&& 0x80 = 0x80 := forall_byte (by decide +kernel)
  have hreduce : (if (a ^^^ b) &&& 0x80 ≠ 0 then (0x1B : UInt8) else 0) =
      (if a &&& 0x80 ≠ 0 then 0x1B else 0) ^^^ (if b &&& 0x80 ≠ 0 then 0x1B else 0) := by
    rw [and_xor_distrib_byte]
    rcases hbit a with ha | ha <;> rcases hbit b with hb | hb <;> rw [ha, hb] <;> decide
  rw [aesDouble, aesDouble, aesDouble, hreduce, UInt8.shiftLeft_xor]
  ac_rfl

theorem aesMultiplyLoop_xor (n : ℕ) (a a' b r r' : UInt8) :
    aesMultiplyLoop n (a ^^^ a') b (r ^^^ r') =
      aesMultiplyLoop n a b r ^^^ aesMultiplyLoop n a' b r' := by
  induction n generalizing a a' b r r' with
  | zero => rfl
  | succ n ih =>
    simp only [aesMultiplyLoop]
    by_cases hb : b = 0
    · simp only [hb, if_true]
    · have hsum : (if b &&& 1 ≠ 0 then r ^^^ r' ^^^ (a ^^^ a') else r ^^^ r') =
          (if b &&& 1 ≠ 0 then r ^^^ a else r) ^^^ (if b &&& 1 ≠ 0 then r' ^^^ a' else r') := by
        split
        · ac_rfl
        · rfl
      rw [if_neg hb, if_neg hb, if_neg hb, hsum, aesDouble_xor, ih]

theorem aesMultiply_xor (a a' b : UInt8) :
    aesMultiply (a ^^^ a') b = aesMultiply a b ^^^ aesMultiply a' b := by
  have h := aesMultiplyLoop_xor 8 a a' b 0 0
  rwa [UInt8.xor_zero] at h

theorem aesRow_xor (k₀ k₁ k₂ k₃ a b d e a' b' d' e' : UInt8) :
    aesRow k₀ k₁ k₂ k₃ (a ^^^ a') (b ^^^ b') (d ^^^ d') (e ^^^ e') =
      aesRow k₀ k₁ k₂ k₃ a b d e ^^^ aesRow k₀ k₁ k₂ k₃ a' b' d' e' := by
  simp only [aesRow, aesMultiply_xor]
  ac_rfl

theorem aesRow_rotate :
    aesRow k₀ k₁ k₂ k₃ a b d e = aesRow k₁ k₂ k₃ k₀ b d e a := by
  simp only [aesRow]
  ac_rfl

/-- A byte through a column of the mixing step and the first row of the inverse step. -/
def mixedRow (k₀ k₁ k₂ k₃ x : UInt8) : UInt8 :=
  aesRow 14 11 13 9 (aesMultiply x k₀) (aesMultiply x k₁) (aesMultiply x k₂) (aesMultiply x k₃)

theorem mixedRow_xor (k₀ k₁ k₂ k₃ x y : UInt8) :
    mixedRow k₀ k₁ k₂ k₃ (x ^^^ y) = mixedRow k₀ k₁ k₂ k₃ x ^^^ mixedRow k₀ k₁ k₂ k₃ y := by
  simp only [mixedRow, aesMultiply_xor, aesRow_xor]

theorem mixedRow_eq (x : UInt8) : mixedRow 2 1 1 3 x = x ∧ mixedRow 3 2 1 1 x = 0 ∧
    mixedRow 1 3 2 1 x = 0 ∧ mixedRow 1 1 3 2 x = 0 := by
  have hhalves : ∀ n < 16, ∀ y ∈ [UInt8.ofNat n, UInt8.ofNat (16 * n)], mixedRow 2 1 1 3 y = y ∧
      mixedRow 3 2 1 1 y = 0 ∧ mixedRow 1 3 2 1 y = 0 ∧ mixedRow 1 1 3 2 y = 0 := by
    decide +kernel
  have hsplit : ∀ n < 256, UInt8.ofNat n =
    UInt8.ofNat (n % 16) ^^^ UInt8.ofNat (16 * (n / 16)) := by
    decide +kernel
  have hx := hsplit x.toNat x.toNat_lt
  have hlow := hhalves (x.toNat % 16) (Nat.mod_lt _ (by decide)) _ mem_cons_self
  have hhigh := hhalves (x.toNat / 16) (Nat.div_lt_of_lt_mul x.toNat_lt) _
    (mem_cons_of_mem _ mem_cons_self)
  rw [UInt8.ofNat_toNat] at hx
  rw [hx]
  simp only [mixedRow_xor, hlow, hhigh, UInt8.xor_self, and_self]

theorem aesRow_mixed (a b d e : UInt8) :
    aesRow 14 11 13 9 (aesRow 2 3 1 1 a b d e) (aesRow 1 2 3 1 a b d e) (aesRow 1 1 2 3 a b d e)
      (aesRow 3 1 1 2 a b d e) = a := by
  have hsum : aesRow 14 11 13 9 (aesRow 2 3 1 1 a b d e) (aesRow 1 2 3 1 a b d e)
      (aesRow 1 1 2 3 a b d e) (aesRow 3 1 1 2 a b d e) =
      mixedRow 2 1 1 3 a ^^^ mixedRow 3 2 1 1 b ^^^ mixedRow 1 3 2 1 d ^^^ mixedRow 1 1 3 2 e := by
    rw [mixedRow, mixedRow, mixedRow, mixedRow, ← aesRow_xor, ← aesRow_xor, ← aesRow_xor]
    rfl
  rw [hsum, (mixedRow_eq a).1, (mixedRow_eq b).2.1, (mixedRow_eq d).2.2.1, (mixedRow_eq e).2.2.2]
  simp

theorem mapColumns_undo {f g : (Fin 4 → UInt8) → Fin 4 → UInt8} (h : ∀ p, g (f p) = p)
    (s : Block) : mapColumns g (mapColumns f s) = s := by
  have hcolumn : ∀ c, aesColumn (mapColumns f s) c = f (aesColumn s c) := by
    intro c
    funext r
    have hc : (c.val * 4 + r.val) / 4 = c := by omega
    have hr : (c.val * 4 + r.val) % 4 = r := by omega
    simp only [aesColumn, mapColumns, hc, hr]
  funext i
  have hi : i.val / 4 * 4 + i.val % 4 = i := by omega
  rw [mapColumns, hcolumn, h]
  simp only [aesColumn, hi]

theorem aesInverseMixColumns_mix : aesInverseMixColumns (aesMixColumns s) = s := by
  refine mapColumns_undo (fun p => ?_) s
  have hrow : ∀ a b d e, aesRow 14 11 13 9 (aesRow 2 3 1 1 a b d e) (aesRow 2 3 1 1 b d e a)
      (aesRow 2 3 1 1 d e a b) (aesRow 2 3 1 1 e a b d) = a := by
    intro a b d e
    simpa only [aesRow_rotate 1 2 3 1, aesRow_rotate 1 1 2 3, aesRow_rotate 3 1 1 2]
      using aesRow_mixed a b d e
  simp only [aesRow_rotate 1 2 3 1, aesRow_rotate 1 1 2 3, aesRow_rotate 3 1 1 2,
    aesRow_rotate 9 14 11 13, aesRow_rotate 13 9 14 11, aesRow_rotate 11 13 9 14]
  funext r
  fin_cases r
  · exact hrow (p 0) (p 1) (p 2) (p 3)
  · exact hrow (p 1) (p 2) (p 3) (p 0)
  · exact hrow (p 2) (p 3) (p 0) (p 1)
  · exact hrow (p 3) (p 0) (p 1) (p 2)

variable (roundKeys : List UInt8)

theorem aesAddRoundKey_twice (round : ℕ) (s : Block) :
    aesAddRoundKey roundKeys round (aesAddRoundKey roundKeys round s) = s := by
  funext i
  simp only [aesAddRoundKey, UInt8.xor_assoc, UInt8.xor_self, UInt8.xor_zero]

theorem aesInverseShiftRows_shift : aesInverseShiftRows (aesShiftRows s) = s := by
  funext i
  fin_cases i <;> rfl

theorem aesInverseSubBytes_sub : aesInverseSubBytes (aesSubBytes s) = s :=
  funext fun i => inverseSbox_forward (s i)

theorem aesDecryptRounds_encrypt (n : ℕ) (s : Block) : aesDecryptRounds roundKeys n
        (aesShiftRows (aesSubBytes (aesEncryptRounds roundKeys n s))) =
      aesShiftRows (aesSubBytes s) := by
  induction n with
  | zero => rfl
  | succ n ih =>
    rw [aesDecryptRounds, aesInverseShiftRows_shift, aesInverseSubBytes_sub, aesEncryptRounds,
      aesAddRoundKey_twice, aesInverseMixColumns_mix, ih]

theorem aes128Decrypt_encrypt (input : Block) :
    aes128Decrypt key (aes128Encrypt key input) = input := by
  simp only [aes128Decrypt, aes128Encrypt, aesAddRoundKey_twice, aesDecryptRounds_encrypt,
    aesInverseShiftRows_shift, aesInverseSubBytes_sub]

abbrev Half := Fin 8 → UInt8

/-- The integrity register and the registers of the text. -/
abbrev WrapState := Half × (ℕ → Half)

def xorCounter (a : Half) (t : ℕ) : Half := fun i => a i ^^^ UInt8.ofNat (t / 256 ^ (7 - i.val))

def unwrapStep (kek : List UInt8) (t register : ℕ) (w : WrapState) : WrapState :=
  let decrypted := aes128Decrypt kek (Fin.append (xorCounter w.1 t) (w.2 register))
  (fun i => decrypted (Fin.castAdd 8 i),
    Function.update w.2 register fun i => decrypted (Fin.natAdd 8 i))

def wrapStep (kek : List UInt8) (t register : ℕ) (w : WrapState) : WrapState :=
  let encrypted := aes128Encrypt kek (Fin.append w.1 (w.2 register))
  (xorCounter (fun i => encrypted (Fin.castAdd 8 i)) t,
    Function.update w.2 register fun i => encrypted (Fin.natAdd 8 i))

def unwrapPass (kek : List UInt8) (n j : ℕ) : ℕ → WrapState → WrapState
  | 0, w => w
  | reverse + 1, w => unwrapPass kek n j reverse (unwrapStep kek (n * j + (reverse + 1)) reverse w)

def unwrapPasses (kek : List UInt8) (n : ℕ) : ℕ → WrapState → WrapState
  | 0, w => w
  | j + 1, w => unwrapPasses kek n j (unwrapPass kek n j n w)

def wrapPass (kek : List UInt8) (n j : ℕ) : ℕ → WrapState → WrapState
  | 0, w => w
  | i + 1, w => wrapStep kek (n * j + (i + 1)) i (wrapPass kek n j i w)

def wrapPasses (kek : List UInt8) (n : ℕ) : ℕ → WrapState → WrapState
  | 0, w => w
  | j + 1, w => wrapPass kek n j n (wrapPasses kek n j w)

def halfAt (b : List UInt8) (i : ℕ) : Half := fun k => b.getD (i + k) 0

def joinRegisters (n : ℕ) (r : ℕ → Half) : List UInt8 :=
  (List.range (n * 8)).map fun k => r (k / 8) ⟨k % 8, Nat.mod_lt k (by norm_num)⟩

def integrityValue : List UInt8 := List.replicate 8 0xA6

/-- Whether the text is accepted, and what is written to the output buffer, if anything is. -/
def aesKeyUnwrap (kek ciphertext : List UInt8) (capacity : ℕ) : Bool × Option (List UInt8) :=
  if ciphertext.length < 24 ∨ ciphertext.length % 8 ≠ 0 then (false, none)
  else
    let n := ciphertext.length / 8 - 1
    if capacity < n * 8 then (false, none)
    else
      let w := unwrapPasses kek n 6 (halfAt ciphertext 0, fun i => halfAt ciphertext (8 + 8 * i))
      if constantTimeEqual (List.ofFn w.1) integrityValue
      then (true, some (joinRegisters n w.2))
      else (false, some (List.replicate (n * 8) 0))

def aesKeyWrap (kek plaintext : List UInt8) : List UInt8 :=
  let n := plaintext.length / 8
  let w := wrapPasses kek n 6 (halfAt integrityValue 0, fun i => halfAt plaintext (8 * i))
  List.ofFn w.1 ++ joinRegisters n w.2

theorem xorCounter_twice (a : Half) (t : ℕ) : xorCounter (xorCounter a t) t = a := by
  funext i
  simp only [xorCounter, UInt8.xor_assoc, UInt8.xor_self, UInt8.xor_zero]

theorem append_halves (b : Block) :
    Fin.append (fun i : Fin 8 => b (Fin.castAdd 8 i)) (fun i : Fin 8 => b (Fin.natAdd 8 i)) = b :=
  Fin.append_castAdd_natAdd

variable (kek : List UInt8)

theorem unwrapStep_wrap (t register : ℕ) (w : WrapState) :
    unwrapStep kek t register (wrapStep kek t register w) = w := by
  simp only [unwrapStep, wrapStep, xorCounter_twice, Function.update_self, append_halves,
    aes128Decrypt_encrypt, Fin.append_left, Fin.append_right, Function.update_idem,
    Function.update_eq_self]

theorem unwrapPass_wrap (n j i : ℕ) (w : WrapState) :
    unwrapPass kek n j i (wrapPass kek n j i w) = w := by
  induction i with
  | zero => rfl
  | succ i ih => rw [unwrapPass, wrapPass, unwrapStep_wrap, ih]

theorem unwrapPasses_wrap (n j : ℕ) (w : WrapState) :
    unwrapPasses kek n j (wrapPasses kek n j w) = w := by
  induction j with
  | zero => rfl
  | succ j ih => rw [unwrapPasses, wrapPasses, unwrapPass_wrap, ih]

theorem wrapPass_beyond (n j i : ℕ) (w : WrapState) {k : ℕ} (hk : i ≤ k) :
    (wrapPass kek n j i w).2 k = w.2 k := by
  induction i with
  | zero => rfl
  | succ i ih =>
    simp only [wrapPass, wrapStep]
    rw [Function.update_of_ne (by omega)]
    exact ih (by omega)

theorem wrapPasses_beyond (n j : ℕ) (w : WrapState) {k : ℕ} (hk : n ≤ k) :
    (wrapPasses kek n j w).2 k = w.2 k := by
  induction j with
  | zero => rfl
  | succ j ih => rw [wrapPasses, wrapPass_beyond kek n j n _ hk, ih]

@[simp] theorem length_joinRegisters (n : ℕ) (r : ℕ → Half) :
    (joinRegisters n r).length = n * 8 := by
  simp [joinRegisters]

theorem halfAt_of_length_le {b : List UInt8} {i : ℕ} (h : b.length ≤ i) : halfAt b i = 0 := by
  funext k
  rw [halfAt, getD_eq_getElem?_getD, getElem?_eq_none (by omega)]
  rfl

theorem halfAt_joinRegisters {n i : ℕ} (r : ℕ → Half) (a : Half) (h : i < n) :
    halfAt (List.ofFn a ++ joinRegisters n r) (8 + 8 * i) = r i := by
  funext k
  have hle : (List.ofFn a).length ≤ 8 + 8 * i + k := by simp; omega
  have hdiv : (8 * i + k.val) / 8 = i := by omega
  have hmod : (8 * i + k.val) % 8 = k := by omega
  rw [halfAt, getD_eq_getElem?_getD, getElem?_append_right hle, joinRegisters,
    getElem?_map, getElem?_range (by simp; omega)]
  simp only [length_ofFn, map_some, getD_some,
    show 8 + 8 * i + k.val - 8 = 8 * i + k by omega, hdiv, hmod]

theorem halfAt_ofFn (a : Half) (rest : List UInt8) : halfAt (List.ofFn a ++ rest) 0 = a := by
  funext k
  rw [halfAt, List.getD_eq_getElem?_getD, List.getElem?_append_left (by simp),
    List.getElem?_eq_getElem (by simp), getD_some, List.getElem_ofFn]
  exact congrArg a (Fin.ext (Nat.zero_add k))

theorem joinRegisters_halfAt {b : List UInt8} {n : ℕ} (h : b.length = n * 8) :
    joinRegisters n (fun i => halfAt b (8 * i)) = b := by
  refine ext_getElem (by simp [h]) fun k hk hkb => ?_
  simp only [joinRegisters, getElem_map, getElem_range, halfAt, Nat.div_add_mod]
  rw [getD_eq_getElem?_getD, getElem?_eq_getElem hkb, getD_some]

theorem aesKeyUnwrap_wrap {plaintext : List UInt8} {n capacity : ℕ}
    (hlength : plaintext.length = n * 8) (hn : 2 ≤ n) (hcapacity : n * 8 ≤ capacity) :
    aesKeyUnwrap kek (aesKeyWrap kek plaintext) capacity = (true, some plaintext) := by
  have hdiv : plaintext.length / 8 = n := by omega
  have hwrapped : (aesKeyWrap kek plaintext).length = 8 + n * 8 := by
    rw [aesKeyWrap, length_append, length_ofFn, length_joinRegisters, hdiv]
  set w₀ : WrapState := (halfAt integrityValue 0, fun i => halfAt plaintext (8 * i)) with hw₀
  set w := wrapPasses kek n 6 w₀ with hw
  have hcipher : aesKeyWrap kek plaintext = List.ofFn w.1 ++ joinRegisters n w.2 := by
    rw [aesKeyWrap, hdiv]
  have hregisters : (fun i => halfAt (aesKeyWrap kek plaintext) (8 + 8 * i)) = w.2 := by
    funext i
    by_cases hi : i < n
    · rw [hcipher, halfAt_joinRegisters _ _ hi]
    · have hw₀i : w₀.2 i = 0 := halfAt_of_length_le (by omega)
      rw [hw, wrapPasses_beyond kek n 6 w₀ (by omega), hw₀i, halfAt_of_length_le (by omega)]
  have hfirst : halfAt (aesKeyWrap kek plaintext) 0 = w.1 := by rw [hcipher, halfAt_ofFn]
  have hn' : (8 + n * 8) / 8 - 1 = n := by omega
  have hround : unwrapPasses kek n 6 (w.1, w.2) = w₀ := unwrapPasses_wrap kek n 6 w₀
  have hvalue : List.ofFn (halfAt integrityValue 0) = integrityValue := by decide
  rw [aesKeyUnwrap, hwrapped, if_neg (by omega)]
  simp only [hn', hregisters, hfirst, hround, hw₀, hvalue, constantTimeEqual_self, if_true]
  rw [if_neg (by omega), joinRegisters_halfAt hlength]

end MicroK.Wpa2
