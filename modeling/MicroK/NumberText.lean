import Mathlib.Data.Nat.Digits.Lemmas
import MicroK.NetConfigText

/-!
# Numbers as text

`itoa` writes the digits of a number from the last to the first and then turns them around in place.
Its remainders have the sign of the number, and it takes the sign away in base ten only, so the
digits of other negative numbers come out below `'0'`. `append_u32` gives it unsigned numbers.
-/

namespace MicroK.NumberText

open List Nat

structure Base where
  value : ℕ
  two_le : 2 ≤ value
  le_sixteen : value ≤ 16

def ten : Base := ⟨10, by decide, by decide⟩

def digitByte (rem : ℤ) : UInt8 := UInt8.ofInt (if 9 < rem then rem - 10 + 0x61 else rem + 0x30)

def itoaLoop (base : Base) (num : ℤ) (str : List UInt8) : List UInt8 :=
  if num = 0 then str
  else itoaLoop base (num.tdiv base.value) (str ++ [digitByte (num.tmod base.value)])
termination_by num.natAbs
decreasing_by
  rw [Int.natAbs_tdiv]
  exact Nat.div_lt_self (by omega) base.two_le

def reverseLoop (str : List UInt8) (start stop : ℕ) : List UInt8 :=
  if start < stop then
    reverseLoop ((str.set start (str.getD stop 0)).set stop (str.getD start 0)) (start + 1)
      (stop - 1)
  else str
termination_by stop - start

def itoa (num : BitVec 32) (base : Base) : List UInt8 :=
  if num = 0 then [0x30]
  else
    let isNegative := num.toInt < 0 ∧ base.value = 10
    let str := itoaLoop base (if isNegative then -num else num).toInt []
    let str := if isNegative then str ++ [0x2D] else str
    reverseLoop str 0 (str.length - 1)

/-- Text behind the bytes that a buffer of `max` bytes has; the last one is for the zero. -/
def appendStr (max : ℕ) : List UInt8 → List UInt8 → List UInt8
  | out, [] => out
  | out, c :: text => if out.length + 1 < max then appendStr max (out ++ [c]) text else out

def appendU32 (max : ℕ) (out : List UInt8) (value : BitVec 32) : List UInt8 :=
  appendStr max out (itoa value ten)

def digitValue (c : UInt8) : Option ℕ :=
  if 0x30 ≤ c ∧ c ≤ 0x39 then some (c.toNat - 0x30)
  else if 0x61 ≤ c ∧ c ≤ 0x66 then some (c.toNat - 0x57)
  else none

variable (base : Base)

def readDigit (n : ℕ) (c : UInt8) : Option ℕ :=
  (digitValue c).bind fun d => if d < base.value then some (n * base.value + d) else none

def readInt : List UInt8 → Option ℤ
  | [] => none
  | c :: text =>
    if c = 0x2D ∧ text ≠ [] then (text.foldlM (readDigit base) 0).map fun n : ℕ => -(n : ℤ)
    else ((c :: text).foldlM (readDigit base) 0).map fun n : ℕ => (n : ℤ)

theorem reverseLoop_eq (a m b : List UInt8) :
    reverseLoop (a ++ (m ++ b)) a.length (a.length + m.length - 1) = a ++ (m.reverse ++ b) := by
  induction m using bidirectionalRec generalizing a b with
  | nil => rw [reverseLoop, if_neg (by simp)]; rfl
  | singleton x => rw [reverseLoop, if_neg (by simp)]; rfl
  | cons_append x m y ih =>
    have hstep := ih (a ++ [y]) (x :: b)
    rw [reverseLoop, if_pos (by simp)]
    have hlast : a.length + (x :: (m ++ [y])).length - 1 = a.length + (m.length + 1) := by
      simp
    rw [hlast]
    simpa using hstep

theorem reverseLoop_all (str : List UInt8) : reverseLoop str 0 (str.length - 1) = str.reverse := by
  simpa using reverseLoop_eq [] str []

theorem itoaLoop_eq {s : ℤ} (hs : s = 1 ∨ s = -1) (n : ℕ) (str : List UInt8) :
    itoaLoop base (s * n) str = str ++
      (Nat.digits base.value n).map fun d : ℕ => digitByte (s * d) := by
  induction n using Nat.strong_induction_on generalizing str with
  | _ n ih =>
    have hbase := base.two_le
    rcases Nat.eq_zero_or_pos n with rfl | hpos
    · rw [itoaLoop, if_pos (by simp), Nat.digits_zero, map_nil, append_nil]
    · have hdiv : (s * n).tdiv base.value = s * (n / base.value : ℕ) ∧
          (s * n).tmod base.value = s * (n % base.value : ℕ) := by
        rcases hs with rfl | rfl <;>
          simp [Int.neg_tdiv, Int.neg_tmod, Int.tmod_eq_emod_of_nonneg (Int.natCast_nonneg n)]
      rw [itoaLoop, if_neg (by rcases hs with rfl | rfl <;> omega), hdiv.1, hdiv.2,
        ih _ (Nat.div_lt_self hpos hbase), Nat.digits_def' hbase hpos, map_cons, append_assoc]
      rfl

/-- The digits from the first to the last; a negative sign `s` is in each of them. -/
def digitText (s : ℤ) (n : ℕ) : List UInt8 :=
  ((Nat.digits base.value n).map fun d : ℕ => digitByte (s * d)).reverse

theorem digits_lt {n d : ℕ} (hd : d ∈ Nat.digits base.value n) : d < base.value ∧ d < 16 := by
  have hlt := digits_lt_base base.two_le hd
  exact ⟨hlt, hlt.trans_le base.le_sixteen⟩

theorem digitValue_pos : ∀ d : ℕ, d < 16 → digitValue (digitByte (1 * d)) = some d := by decide

/-- A digit with a sign is no digit, unless it is zero. -/
theorem digitValue_neg : ∀ d : ℕ, d < 16 → ∀ e ∈ digitValue (digitByte (-1 * d)), e = 0 := by decide

theorem readDigits_pos (n : ℕ) : (digitText base 1 n).foldlM (readDigit base) 0 = some n := by
  have h : ∀ ds : List ℕ, (∀ d ∈ ds, d < base.value ∧ d < 16) →
      ((ds.map fun d : ℕ => digitByte (1 * d)).reverse).foldlM (readDigit base) 0 =
        some (Nat.ofDigits base.value ds) := by
    intro ds hds
    induction ds with
    | nil => rfl
    | cons d ds ih =>
      obtain ⟨hd, hds⟩ := forall_mem_cons.1 hds
      rw [map_cons, reverse_cons, foldlM_append, ih hds]
      have hdigit := digitValue_pos d hd.2
      rw [Int.one_mul] at hdigit
      simp [readDigit, hdigit, hd.1, ofDigits_cons, mul_comm, add_comm]
  rw [digitText, h _ fun d hd => digits_lt base hd, ofDigits_digits]

theorem itoa_eq {num : BitVec 32} (hnum : num ≠ 0) {s : ℤ} (hs : s = 1 ∨ s = -1) {n : ℕ}
    (hn : (if num.toInt < 0 ∧ base.value = 10 then -num else num).toInt = s * n) :
    itoa num base = 
      (if num.toInt < 0 ∧ base.value = 10 then [0x2D] else []) ++ digitText base s n := by
  rw [itoa, if_neg hnum]
  dsimp only
  rw [reverseLoop_all, hn, itoaLoop_eq base hs, digitText]
  split_ifs <;> simp

theorem digitText_ne_nil (s : ℤ) {n : ℕ} (hn : 0 < n) : digitText base s n ≠ [] := by
  simp [digitText, digits_ne_nil_iff_ne_zero, hn.ne']

theorem readInt_digitText {n : ℕ} (hn : 0 < n) :
    readInt base (digitText base 1 n) = some (n : ℤ) ∧
      readInt base (0x2D :: digitText base 1 n) = some (-(n : ℤ)) := by
  have hread := readDigits_pos base n
  have hne := digitText_ne_nil base 1 hn
  refine ⟨?_, by simp [readInt, hne, hread]⟩
  obtain ⟨c, text, htext⟩ := exists_cons_of_ne_nil hne
  rw [htext] at hread ⊢
  have hc : c ≠ 0x2D := by
    rintro rfl
    cases hread
  rw [readInt, if_neg fun h => hc h.1, hread]
  rfl

theorem readInt_eq_zero {text : List UInt8} (h : ∀ c ∈ text, ∀ d ∈ digitValue c, d = 0) {v : ℤ}
    (hv : readInt base text = some v) : v = 0 := by
  have hfold : ∀ l ⊆ text, ∀ n, l.foldlM (readDigit base) 0 = some n → n = 0 := by
    intro l hl n hn
    induction l with
    | nil => exact (Option.some.inj hn).symm
    | cons c l ih =>
      rw [cons_subset] at hl
      cases hc : digitValue c with
      | none => simp [readDigit, hc] at hn
      | some d =>
        obtain rfl := h c hl.1 d hc
        refine ih hl.2 ?_
        simpa [readDigit, hc, lt_of_lt_of_le two_pos base.two_le] using hn
  cases text with
  | nil => cases hv
  | cons c text =>
    rw [readInt] at hv
    split_ifs at hv
    all_goals
      obtain ⟨n, hn, rfl⟩ := Option.map_eq_some_iff.1 hv
      rw [hfold _ (by simp) n hn]
      rfl

theorem readInt_itoa_iff (num : BitVec 32) : readInt base (itoa num base) = some num.toInt ↔
    0 ≤ num.toInt ∨ base.value = 10 ∧ num ≠ 0x80000000 := by
  by_cases hzero : num = 0
  · have hpos : 0 < base.value := lt_of_lt_of_le two_pos base.two_le
    subst hzero
    simp [itoa, readInt, readDigit, digitValue, hpos]
  have hne : num.toInt ≠ 0 := fun h => hzero (BitVec.toInt_inj.1 h)
  have habs : 0 < num.toInt.natAbs := by omega
  by_cases hneg : num.toInt < 0
  · by_cases hten : base.value = 10 ∧ num ≠ 0x80000000
    · have htext := @itoa_eq base num hzero 1 (.inl rfl) num.toInt.natAbs
        (by rw [if_pos ⟨hneg, hten.1⟩, BitVec.toInt_neg_of_ne_intMin hten.2]; omega)
      rw [htext, if_pos ⟨hneg, hten.1⟩, singleton_append, (readInt_digitText base habs).2]
      exact iff_of_true (congrArg some (by omega)) (.inr hten)
    · refine iff_of_false (fun h => hne (readInt_eq_zero base (fun c hc => ?_) h))
        fun h => h.elim (not_le.2 hneg) hten
      have hsign : (if num.toInt < 0 ∧ base.value = 10 then -num else num).toInt =
          -1 * num.toInt.natAbs := by
        split_ifs with h
        · rw [of_not_not fun hmin => hten ⟨h.2, hmin⟩]
          rfl
        · omega
      rw [itoa_eq base hzero (.inr rfl) hsign, mem_append] at hc
      rcases hc with hc | hc
      · split_ifs at hc <;> simp_all [digitValue]
      · obtain ⟨d, hd, rfl⟩ := mem_map.1 (mem_reverse.1 hc)
        exact digitValue_neg d (digits_lt base hd).2
  · have htext := @itoa_eq base num hzero 1 (.inl rfl) num.toInt.natAbs
      (by rw [if_neg fun h => hneg h.1]; omega)
    rw [htext, if_neg fun h => hneg h.1, nil_append, (readInt_digitText base habs).1]
    exact iff_of_true (congrArg some (by omega)) (.inl (not_lt.1 hneg))

theorem appendStr_eq (max : ℕ) (out text : List UInt8) :
    appendStr max out text = out ++ text.take (max - 1 - out.length) := by
  induction text generalizing out with
  | nil => simp [appendStr]
  | cons c text ih =>
    rw [appendStr]
    split_ifs with hroom
    · rw [ih, length_append, length_singleton,
        show max - 1 - out.length = max - 1 - (out.length + 1) + 1 by omega]
      simp
    · rw [show max - 1 - out.length = 0 by omega]
      simp

theorem digitByte_ten : ∀ d : ℕ, d < 10 → digitByte (1 * d) = UInt8.ofNat (0x30 + d) := by decide

/-- Below `2 ^ 31` the text of an unsigned number is its decimal representation. -/
theorem itoa_ten {value : BitVec 32} (h : value.toNat < 2 ^ 31) :
    itoa value ten = NetConfig.decimalText value.toNat := by
  by_cases hzero : value = 0
  · rw [hzero]
    rfl
  · have hint : value.toInt = value.toNat := BitVec.toInt_eq_toNat_of_lt (by omega)
    have hpos : value.toNat ≠ 0 := fun h => hzero (BitVec.toNat_inj.1 h)
    rw [@itoa_eq ten value hzero 1 (.inl rfl) value.toNat
      (by rw [if_neg (by omega), hint, Int.one_mul]),
      if_neg (by omega), nil_append, digitText, NetConfig.decimalText, if_neg hpos]
    exact congrArg _ (map_congr_left fun d hd => digitByte_ten d (digits_lt ten hd).1)

theorem appendU32_iff (max : ℕ) (out : List UInt8) (value : BitVec 32) :
    appendU32 max out value =
      out ++ (NetConfig.decimalText value.toNat).take (max - 1 - out.length) ↔
      value.toNat < 2 ^ 31 ∨ max ≤ out.length + 1 := by
  rw [appendU32, appendStr_eq, append_cancel_left_eq]
  by_cases hlt : value.toNat < 2 ^ 31
  · rw [itoa_ten hlt]
    exact iff_of_true rfl (.inl hlt)
  by_cases hroom : max ≤ out.length + 1
  · rw [show max - 1 - out.length = 0 by omega]
    simp [hroom]
  · have hneg : value.toInt < 0 ∧ ten.value = 10 := by
      rw [BitVec.toInt_eq_toNat_cond]
      exact ⟨by split_ifs <;> omega, rfl⟩
    have hzero : value ≠ 0 := fun h => hlt (h ▸ by decide)
    obtain ⟨rest, htext⟩ : ∃ rest, itoa value ten = 0x2D :: rest := by
      rw [itoa, if_neg hzero]
      dsimp only
      rw [reverseLoop_all, if_pos hneg, if_pos hneg, reverse_append]
      exact ⟨_, rfl⟩
    obtain ⟨c, digits, hdigits⟩ := exists_cons_of_ne_nil (NetConfig.decimalText_ne_nil value.toNat)
    have hc := @NetConfig.isDigit_of_mem_decimalText value.toNat c (by simp [hdigits])
    rw [htext, hdigits, show max - 1 - out.length = max - 2 - out.length + 1 by omega]
    refine iff_of_false (fun h => ?_) (by omega)
    rw [take_succ_cons, take_succ_cons, cons.injEq] at h
    rw [← h.1] at hc
    cases hc

/-- The text of a number is read back exactly when the number is not negative, or in base ten when
it is not the least one; and `append_u32` prints what is below `2 ^ 31`. -/
theorem numberText_exact_iff (num : BitVec 32) (max : ℕ) (out : List UInt8) (value : BitVec 32) :
    (readInt base (itoa num base) = some num.toInt ↔
      0 ≤ num.toInt ∨ base.value = 10 ∧ num ≠ 0x80000000) ∧
    (appendU32 max out value =
      out ++ (NetConfig.decimalText value.toNat).take (max - 1 - out.length) ↔
      value.toNat < 2 ^ 31 ∨ max ≤ out.length + 1) :=
  ⟨readInt_itoa_iff base num, appendU32_iff max out value⟩

/-- `-5` in base 16, the least number in base ten, and an unsigned number that is printed as
`-1`. -/
theorem numberText_wrong : (∀ b : Base, b.value = 16 → readInt b (itoa (-5) b) ≠ some (-5)) ∧
    readInt ten (itoa 0x80000000 ten) ≠ some (-2 ^ 31) ∧
    appendU32 16 [] 0xFFFFFFFF ≠ (NetConfig.decimalText 0xFFFFFFFF).take 15 :=
  ⟨fun b hb => mt (readInt_itoa_iff b (-5)).1 (by simp [hb]),
    mt (readInt_itoa_iff ten 0x80000000).1 (by decide),
    mt (appendU32_iff 16 [] 0xFFFFFFFF).1 (by decide)⟩

end MicroK.NumberText
