import Mathlib
import MicroK.GaloisField256
import MicroK.AesKeyWrap

/-!
# The block cipher is that of FIPS 197

The tables and loops of `wpa2_crypto.c` are those of the standard, so the decryption inverts the
cipher layer by layer.
-/

noncomputable section

namespace MicroK.Fips197

open Gf256

abbrev Word := Fin 4 → UInt8

/-- A state by row and column. -/
abbrev State := Fin 4 → Fin 4 → UInt8

abbrev Bytes16 := Fin 16 → UInt8

local instance neZero_four : NeZero 4 := ⟨by decide⟩

local instance neZero_eight : NeZero 8 := ⟨by decide⟩

open Classical in
/-- The multiplicative inverse; zero has none and is mapped to itself. -/
def inverse (b : UInt8) : UInt8 := if h : ∃ c, mul b c = 1 then h.choose else 0

/-- Bit `i` of the result is the sum of the bits `i`, `i + 4` to `i + 7` modulo 8 and a constant. -/
def affine (b : UInt8) : UInt8 :=
  let bit := fun i : Fin 8 => b.toNat.testBit i
  UInt8.ofNat (Nat.ofBits fun i : Fin 8 =>
    bit i ^^ bit (i + 4) ^^ bit (i + 5) ^^ bit (i + 6) ^^ bit (i + 7) ^^ Nat.testBit 0x63 i)

def sbox (b : UInt8) : UInt8 := affine (inverse b)

def subWord (w : Word) : Word := fun r => sbox (w r)

def rotWord (w : Word) : Word := fun r => w (r + 1)

/-- The powers of `x`, from the first round on. -/
def rcon (j : ℕ) : Word := ![(mul 2)^[j - 1] 1, 0, 0, 0]

def keyWord (key : Bytes16) (i : ℕ) : Word :=
  if h : i < 4 then fun r => key ⟨4 * i + r, by omega⟩
  else
    let temp := keyWord key (i - 1)
    let temp := if i % 4 = 0 then fun r => subWord (rotWord temp) r ^^^ rcon (i / 4) r else temp
    fun r => keyWord key (i - 4) r ^^^ temp r
termination_by i

variable (s : State)

def subBytes : State := fun r c => sbox (s r c)

def shiftRows : State := fun r c => s r (c + r)

def mixColumns : State :=
  ![fun c => mul 2 (s 0 c) ^^^ mul 3 (s 1 c) ^^^ s 2 c ^^^ s 3 c,
    fun c => s 0 c ^^^ mul 2 (s 1 c) ^^^ mul 3 (s 2 c) ^^^ s 3 c,
    fun c => s 0 c ^^^ s 1 c ^^^ mul 2 (s 2 c) ^^^ mul 3 (s 3 c),
    fun c => mul 3 (s 0 c) ^^^ s 1 c ^^^ s 2 c ^^^ mul 2 (s 3 c)]

def addRoundKey (key : Bytes16) (round : ℕ) (s : State) : State :=
  fun r c => s r c ^^^ keyWord key (4 * round + c) r

def toState (input : Bytes16) : State := fun r c => input ⟨r + 4 * c, by omega⟩

theorem row_lt (i : Fin 16) : (i : ℕ) % 4 < 4 := by omega

theorem column_lt (i : Fin 16) : (i : ℕ) / 4 < 4 := by omega

def ofState : Bytes16 := fun i => s ⟨i % 4, row_lt i⟩ ⟨i / 4, column_lt i⟩

def rounds (key : Bytes16) : ℕ → State → State
  | 0, s => s
  | n + 1, s => addRoundKey key (n + 1) (mixColumns (shiftRows (subBytes (rounds key n s))))

def cipher (key input : Bytes16) : Bytes16 :=
  let s := rounds key 9 (addRoundKey key 0 (toState input))
  ofState (addRoundKey key 10 (shiftRows (subBytes s)))

theorem sbox_eq {b c : UInt8} (h : mul b c = 1 ∨ b = 0 ∧ c = 0) : sbox b = affine c := by
  unfold sbox inverse
  rcases h with h | ⟨rfl, rfl⟩
  · have hex : ∃ c, mul b c = 1 := ⟨c, h⟩
    rw [dif_pos hex, inverse_unique hex.choose_spec h]
  · rw [dif_neg]
    rintro ⟨c, hc⟩
    have hzero : element (mul 0 c) = element 0 := by rw [element_mul, element_zero, zero_mul]
    rw [element_injective hzero] at hc
    cases hc

theorem keyWord_of_lt (key : Bytes16) {i : ℕ} (h : i < 4) (r : Fin 4) :
    keyWord key i r = key ⟨4 * i + r, by omega⟩ := by
  rw [keyWord, dif_pos h]

theorem keyWord_add_four (key : Bytes16) (i : ℕ) (r : Fin 4) :
    keyWord key (i + 4) r = keyWord key i r ^^^
      if i % 4 = 0 then subWord (rotWord (keyWord key (i + 3))) r ^^^ rcon (i / 4 + 1) r
      else keyWord key (i + 3) r := by
  rw [keyWord, dif_neg (by omega)]
  simp only [show i + 4 - 1 = i + 3 by omega, Nat.add_sub_cancel, Nat.add_mod_right,
    Nat.add_div_right i (by norm_num : 0 < 4)]
  split_ifs <;> rfl

@[simp] theorem ofState_toState (input : Bytes16) : ofState (toState input) = input := by
  funext i
  exact congrArg input (Fin.ext (Nat.mod_add_div i.val 4))

end MicroK.Fips197

end

namespace MicroK.Wpa2

open Gf256 Fips197

variable (a : UInt8)

theorem aesDouble_eq : aesDouble a = xtimes a := rfl

theorem element_aesMultiplyLoop (n : ℕ) (a b r : UInt8) (hb : b.toNat < 2 ^ n) :
    element (aesMultiplyLoop n a b r) = element r + element a * element b := by
  induction n generalizing a b r with
  | zero =>
    obtain rfl : b = 0 := UInt8.toNat_inj.mp (by simpa using hb)
    rw [aesMultiplyLoop, element_zero, mul_zero, add_zero]
  | succ n ih =>
    rw [aesMultiplyLoop]
    by_cases hzero : b = 0
    · rw [if_pos hzero, hzero, element_zero, mul_zero, add_zero]
    · have hhalf : (b >>> 1).toNat < 2 ^ n := by
        have hshift : (b >>> 1).toNat = b.toNat / 2 := by simp [Nat.shiftRight_eq_div_pow]
        omega
      rw [if_neg hzero, ih _ _ _ hhalf, aesDouble_eq, element_xtimes, element_shiftRight b]
      split_ifs
      · rw [element_xor]
        ring
      · ring

theorem aesMultiply_eq (a b : UInt8) : aesMultiply a b = Gf256.mul a b := by
  apply element_injective
  rw [aesMultiply, element_aesMultiplyLoop 8 a b 0 b.toNat_lt, element_zero, zero_add, element_mul]

theorem mul_comm_byte (a b : UInt8) : Gf256.mul a b = Gf256.mul b a := by
  apply element_injective
  rw [element_mul, element_mul, mul_comm]

theorem mul_one_byte : Gf256.mul a 1 = a := by
  apply element_injective
  rw [element_mul, element_one, mul_one]

def inverseAffine (x : UInt8) : UInt8 :=
  let rotate := fun k : UInt8 => (x <<< k) ||| (x >>> (8 - k))
  rotate 1 ^^^ rotate 3 ^^^ rotate 6 ^^^ 0x05

theorem inverseSbox_spec (x : UInt8) :
    (aesMultiply (inverseSbox x) (inverseAffine x) = 1 ∨ inverseSbox x = 0 ∧ inverseAffine x = 0) ∧
      affine (inverseAffine x) = x := by
  revert x
  exact forall_byte (by decide +kernel)

theorem aesForwardSbox_eq (b : UInt8) : aesForwardSbox b = sbox b := by
  obtain ⟨hinverse, haffine⟩ := inverseSbox_spec (aesForwardSbox b)
  rw [inverseSbox_forward, aesMultiply_eq] at hinverse
  rw [sbox_eq hinverse, haffine]

instance finite_byte : Finite UInt8 :=
  Finite.of_injective UInt8.toFin fun _ _ h => UInt8.toFin_inj.mp h

theorem aesRcon_eq : ∀ k < 10, aesRcon.getD k 0 = (Gf256.mul 2)^[k] 1 := by
  have hmul : Gf256.mul 2 = aesMultiply 2 := funext fun b => (aesMultiply_eq 2 b).symm
  rw [hmul]
  decide +kernel

theorem getD_append_range (l : List UInt8) (f : ℕ → UInt8) (k : ℕ) :
    (l ++ (List.range 4).map f).getD k 0 =
      if k < l.length then l.getD k 0 else if k < l.length + 4 then f (k - l.length) else 0 := by
  by_cases hk : k < l.length
  · rw [if_pos hk, List.getD_append _ _ _ _ hk]
  · rw [if_neg hk, List.getD_append_right _ _ _ _ (Nat.not_lt.mp hk), List.getD_eq_getElem?_getD,
      List.getElem?_map]
    by_cases hlt : k < l.length + 4
    · rw [if_pos hlt, List.getElem?_range (by omega)]
      rfl
    · rw [if_neg hlt, List.getElem?_eq_none (by simp; omega)]
      rfl

theorem length_aesExpandWords (key : List UInt8) (n : ℕ) :
    (aesExpandWords key n).length = key.length + 4 * n := by
  induction n with
  | zero => rfl
  | succ n ih =>
    simp only [aesExpandWords, List.length_append, ih, List.length_map, List.length_range]
    omega

variable (key : Block)

theorem aesExpandWords_eq (n : ℕ) (hn : n ≤ 40) : ∀ i < 4 + n, ∀ r : Fin 4,
      (aesExpandWords (List.ofFn key) n).getD (4 * i + r) 0 = keyWord key i r := by
  induction n with
  | zero =>
    intro i hi r
    rw [keyWord_of_lt key (by omega), aesExpandWords, List.getD_eq_getElem?_getD,
      List.getElem?_eq_getElem (by simp; omega), Option.getD_some, List.getElem_ofFn]
  | succ n ih =>
    intro i hi r
    have hlength : (aesExpandWords (List.ofFn key) n).length = 16 + 4 * n := by
      rw [length_aesExpandWords, List.length_ofFn]
    have hword := fun j hj => ih (by omega) j hj
    rw [aesExpandWords, getD_append_range, hlength]
    by_cases hlast : i < 4 + n
    · rw [if_pos (by omega), hword i hlast]
    · obtain rfl : i = n + 4 := by omega
      have hlt : ∀ k : Fin 4, 16 + 4 * n - 4 + k = 4 * (n + 3) + k := by omega
      rw [if_neg (by omega), if_pos (by omega), keyWord_add_four,
        show 4 * (n + 4) + r.val - (16 + 4 * n) = r by omega,
        show 16 + 4 * n - 16 + r.val = 4 * n + r by omega, hword n (by omega)]
      congr 1
      have hprev : ∀ k : Fin 4, (aesExpandWords (List.ofFn key) n).getD (16 + 4 * n - 4 + k) 0 =
          keyWord key (n + 3) k := fun k => by rw [hlt, hword (n + 3) (by omega)]
      by_cases hmod : n % 4 = 0
      · have hsub : ∀ k : Fin 4, aesForwardSbox
            ((aesExpandWords (List.ofFn key) n).getD (16 + 4 * n - 4 + k) 0) =
              sbox (keyWord key (n + 3) k) := fun k => by rw [hprev, aesForwardSbox_eq]
        rw [if_pos (by omega), if_pos hmod, aesRcon_eq _ (by omega)]
        fin_cases r
        · exact congrArg (· ^^^ (Gf256.mul 2)^[n / 4] 1) (hsub 1)
        · exact (hsub 2).trans UInt8.xor_zero.symm
        · exact (hsub 3).trans UInt8.xor_zero.symm
        · exact (hsub 0).trans UInt8.xor_zero.symm
      · rw [if_neg (by omega), if_neg hmod]
        fin_cases r
        · exact hprev 0
        · exact hprev 1
        · exact hprev 2
        · exact hprev 3

theorem aesExpandKey_eq : ∀ i < 44, ∀ r : Fin 4,
    (aesExpandKey (List.ofFn key)).getD (4 * i + r) 0 = keyWord key i r :=
  aesExpandWords_eq key 40 le_rfl

theorem toState_addRoundKey (key s : Block) {round : ℕ} (hround : round ≤ 10) :
    toState (aesAddRoundKey (aesExpandKey (List.ofFn key)) round s) =
      addRoundKey key round (toState s) := by
  funext r c
  have hindex : 4 * (4 * round + c.val) + r = round * 16 + (r + 4 * c) := by ring
  have hkey := aesExpandKey_eq key (4 * round + c) (by omega) r
  rw [hindex] at hkey
  rw [addRoundKey, ← hkey]
  rfl

theorem toState_subBytes (s : Block) : toState (aesSubBytes s) = subBytes (toState s) := by
  funext r c
  exact aesForwardSbox_eq _

theorem toState_shiftRows (s : Block) : toState (aesShiftRows s) = shiftRows (toState s) := by
  funext r c
  fin_cases r <;> fin_cases c <;> rfl

theorem aesMultiply_two : aesMultiply a 2 = Gf256.mul 2 a := by
  rw [aesMultiply_eq, mul_comm_byte]

theorem aesMultiply_three : aesMultiply a 3 = Gf256.mul 3 a := by
  rw [aesMultiply_eq, mul_comm_byte]

theorem aesMultiply_one : aesMultiply a 1 = a := by
  rw [aesMultiply_eq, mul_one_byte]

theorem toState_mixColumns (s : Block) : toState (aesMixColumns s) = mixColumns (toState s) := by
  have hcolumn : ∀ (r c : Fin 4), toState (aesMixColumns s) r c =
      ![aesRow 2 3 1 1 (toState s 0 c) (toState s 1 c) (toState s 2 c) (toState s 3 c),
        aesRow 1 2 3 1 (toState s 0 c) (toState s 1 c) (toState s 2 c) (toState s 3 c),
        aesRow 1 1 2 3 (toState s 0 c) (toState s 1 c) (toState s 2 c) (toState s 3 c),
        aesRow 3 1 1 2 (toState s 0 c) (toState s 1 c) (toState s 2 c) (toState s 3 c)] r := by
    intro r c
    fin_cases r <;> fin_cases c <;> rfl
  funext r c
  rw [hcolumn]
  simp only [aesRow, aesMultiply_one, aesMultiply_two, aesMultiply_three]
  fin_cases r <;> rfl

theorem toState_encryptRounds (n : ℕ) (hn : n ≤ 10) (s : Block) :
    toState (aesEncryptRounds (aesExpandKey (List.ofFn key)) n s) = rounds key n (toState s) := by
  induction n with
  | zero => rfl
  | succ n ih =>
    rw [aesEncryptRounds, toState_addRoundKey key _ hn, toState_mixColumns, toState_shiftRows,
      toState_subBytes, ih (by omega), rounds]

theorem aes128Encrypt_eq : aes128Encrypt (List.ofFn key) = cipher key := by
  funext s
  rw [← ofState_toState (aes128Encrypt (List.ofFn key) s)]
  simp only [aes128Encrypt, toState_addRoundKey key _ le_rfl, toState_shiftRows, toState_subBytes,
    toState_encryptRounds key 9 (by omega), toState_addRoundKey key s (Nat.zero_le 10), cipher]

theorem aes128Encrypt_decrypt (key : List UInt8) (s : Block) :
    aes128Encrypt key (aes128Decrypt key s) = s := by
  have hleft : Function.LeftInverse (aes128Decrypt key) (aes128Encrypt key) :=
    aes128Decrypt_encrypt key
  have hsurjective := Finite.surjective_of_injective hleft.injective
  obtain ⟨p, rfl⟩ := hsurjective s
  rw [aes128Decrypt_encrypt]

/-- The substitution box found by the search and the expanded key are those of FIPS 197, and the
decryption is the inverse of the cipher. -/
theorem aes128Decrypt_inverts_cipher (key : Block) :
    (∀ b, aesForwardSbox b = sbox b) ∧
    ((aesExpandKey (List.ofFn key)).length = 176 ∧ ∀ i < 44, ∀ r : Fin 4,
      (aesExpandKey (List.ofFn key)).getD (4 * i + r) 0 = keyWord key i r) ∧
    Function.LeftInverse (aes128Decrypt (List.ofFn key)) (cipher key) ∧
    Function.RightInverse (aes128Decrypt (List.ofFn key)) (cipher key) := by
  have hlength : (aesExpandKey (List.ofFn key)).length = 176 := by
    rw [aesExpandKey, length_aesExpandWords, List.length_ofFn]
  rw [← aes128Encrypt_eq]
  exact ⟨aesForwardSbox_eq, ⟨hlength, aesExpandKey_eq key⟩, aes128Decrypt_encrypt _,
    aes128Encrypt_decrypt _⟩

end MicroK.Wpa2
