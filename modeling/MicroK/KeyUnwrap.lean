import MicroK.AesCipher

/-!
# The unwrapping accepts exactly what was wrapped

The steps of the unwrapping invert those of RFC 3394 over the block cipher on both sides: a text is
accepted only if it is the wrapping of the result, and a text that is not accepted leaves zeros
behind.
-/

namespace MicroK.Rfc3394

variable (E : (Fin 16 → UInt8) → Fin 16 → UInt8)

def counterByte (t : ℕ) (i : Fin 8) : UInt8 := UInt8.ofNat (t / 256 ^ (7 - i.val))

def wrapStep (t i : ℕ) (s : (Fin 8 → UInt8) × (ℕ → Fin 8 → UInt8)) :
    (Fin 8 → UInt8) × (ℕ → Fin 8 → UInt8) :=
  let b := E (Fin.append s.1 (s.2 i))
  (fun k => b (Fin.castAdd 8 k) ^^^ counterByte t k,
    Function.update s.2 i fun k => b (Fin.natAdd 8 k))

def wrapBlocks (n : ℕ) (r : ℕ → Fin 8 → UInt8) : (Fin 8 → UInt8) × (ℕ → Fin 8 → UInt8) :=
  (List.range 6).foldl
    (fun s j => (List.range n).foldl (fun s i => wrapStep E (n * j + (i + 1)) i s) s)
    (fun _ => 0xA6, r)

def wrap (plaintext : List UInt8) : List UInt8 :=
  let n := plaintext.length / 8
  let s := wrapBlocks E n fun i k => plaintext.getD (8 * i + k) 0
  List.ofFn s.1 ++ (List.range n).flatMap fun i => List.ofFn (s.2 i)

end MicroK.Rfc3394

namespace MicroK.Wpa2

theorem foldl_or_eq_zero {l : List UInt8} {a : UInt8} (h : l.foldl (· ||| ·) a = 0) :
    a = 0 ∧ ∀ b ∈ l, b = 0 := by
  induction l generalizing a with
  | nil => exact ⟨h, fun b hb => absurd hb List.not_mem_nil⟩
  | cons x l ih =>
    obtain ⟨hax, hl⟩ := ih h
    obtain ⟨ha, hx⟩ := UInt8.or_eq_zero_iff.mp hax
    exact ⟨ha, List.forall_mem_cons.mpr ⟨hx, hl⟩⟩

theorem eq_of_constantTimeEqual {a b : List UInt8} (hlength : a.length = b.length)
    (h : constantTimeEqual a b = true) : a = b := by
  have hzero := (foldl_or_eq_zero (beq_iff_eq.mp h)).2
  refine List.ext_getElem hlength fun i hi hi' => ?_
  have hxor := hzero (a.get ⟨i, hi⟩ ^^^ b.get ⟨i, hi'⟩) (List.mem_iff_getElem.mpr
    ⟨i, by simp [hi, hi'], by simp⟩)
  exact UInt8.xor_eq_zero_iff.mp hxor

variable (kek : List UInt8)

theorem wrapStep_unwrap (t register : ℕ) (w : WrapState) :
    wrapStep kek t register (unwrapStep kek t register w) = w := by
  simp only [unwrapStep, wrapStep, Function.update_self, append_halves, aes128Encrypt_decrypt,
    Fin.append_left, Fin.append_right, Function.update_idem, Function.update_eq_self,
    xorCounter_twice]

theorem wrapPass_unwrap (n j i : ℕ) (w : WrapState) :
    wrapPass kek n j i (unwrapPass kek n j i w) = w := by
  induction i generalizing w with
  | zero => rfl
  | succ i ih => rw [unwrapPass, wrapPass, ih, wrapStep_unwrap]

theorem wrapPasses_unwrap (n j : ℕ) (w : WrapState) :
    wrapPasses kek n j (unwrapPasses kek n j w) = w := by
  induction j generalizing w with
  | zero => rfl
  | succ j ih => rw [unwrapPasses, wrapPasses, ih, wrapPass_unwrap]

theorem unwrapPass_beyond (n j i : ℕ) (w : WrapState) {k : ℕ} (hk : i ≤ k) :
    (unwrapPass kek n j i w).2 k = w.2 k := by
  induction i generalizing w with
  | zero => rfl
  | succ i ih =>
    rw [unwrapPass, ih _ (by omega), unwrapStep]
    exact Function.update_of_ne (by omega) _ _

theorem unwrapPasses_beyond (n j : ℕ) (w : WrapState) {k : ℕ} (hk : n ≤ k) :
    (unwrapPasses kek n j w).2 k = w.2 k := by
  induction j generalizing w with
  | zero => rfl
  | succ j ih => rw [unwrapPasses, ih, unwrapPass_beyond kek n j n w hk]

section

variable (kek : Block)

theorem wrapStep_eq (t register : ℕ) (w : WrapState) :
    wrapStep (List.ofFn kek) t register w =
      Rfc3394.wrapStep (Fips197.cipher kek) t register w := by
  rw [wrapStep, aes128Encrypt_eq]
  rfl

theorem wrapPass_eq (n j i : ℕ) (w : WrapState) :
    wrapPass (List.ofFn kek) n j i w = (List.range i).foldl
      (fun s i => Rfc3394.wrapStep (Fips197.cipher kek) (n * j + (i + 1)) i s) w := by
  induction i with
  | zero => rfl
  | succ i ih =>
    rw [wrapPass, ih, wrapStep_eq, List.range_succ, List.foldl_append]
    rfl

theorem wrapPasses_eq (n j : ℕ) (w : WrapState) :
    wrapPasses (List.ofFn kek) n j w = (List.range j).foldl (fun s j => (List.range n).foldl
      (fun s i => Rfc3394.wrapStep (Fips197.cipher kek) (n * j + (i + 1)) i s) s) w := by
  induction j with
  | zero => rfl
  | succ j ih =>
    rw [wrapPasses, wrapPass_eq, ih, List.range_succ, List.foldl_append]
    rfl

theorem joinRegisters_eq (n : ℕ) (r : ℕ → Half) :
    joinRegisters n r = (List.range n).flatMap fun i => List.ofFn (r i) := by
  induction n with
  | zero => rfl
  | succ n ih =>
    have hlast : (List.range 8).map (fun k => r ((n * 8 + k) / 8)
        ⟨(n * 8 + k) % 8, Nat.mod_lt _ (by norm_num)⟩) = List.ofFn (r n) := by
      refine List.ext_getElem (by simp) fun k hk hk' => ?_
      have hlt : k < 8 := by simpa using hk
      simp only [List.getElem_map, List.getElem_range, List.getElem_ofFn]
      congr 1
      · rw [show (n * 8 + k) / 8 = n by omega]
      · exact Fin.ext (by simp; omega)
    rw [List.range_succ, List.flatMap_append, ← ih, joinRegisters, Nat.add_mul, List.range_add,
      List.map_append, List.map_map, List.flatMap_singleton, ← hlast]
    rfl

theorem aesKeyWrap_eq (plaintext : List UInt8) :
    aesKeyWrap (List.ofFn kek) plaintext = Rfc3394.wrap (Fips197.cipher kek) plaintext := by
  have hvalue : halfAt integrityValue 0 = fun _ => 0xA6 := by decide
  rw [aesKeyWrap, wrapPasses_eq, joinRegisters_eq, hvalue]
  rfl

end

theorem halfAt_drop (b : List UInt8) (i j : ℕ) : halfAt (b.drop i) j = halfAt b (i + j) := by
  funext k
  simp only [halfAt, List.getD_eq_getElem?_getD, List.getElem?_drop, Nat.add_assoc]

theorem ofFn_halfAt {b : List UInt8} (h : 8 ≤ b.length) : List.ofFn (halfAt b 0) = b.take 8 := by
  refine List.ext_getElem (by simp [h]) fun k hk hk' => ?_
  have hlt : k < b.length := by simp at hk; omega
  simp only [List.getElem_ofFn, List.getElem_take, halfAt, Nat.zero_add]
  rw [List.getD_eq_getElem?_getD, List.getElem?_eq_getElem hlt, Option.getD_some]

theorem registers_join {b : List UInt8} {n : ℕ} (h : b.length = 8 + n * 8) :
    List.ofFn (halfAt b 0) ++ joinRegisters n (fun i => halfAt b (8 + 8 * i)) = b := by
  have hrest : joinRegisters n (fun i => halfAt b (8 + 8 * i)) = b.drop 8 := by
    have hdrop := joinRegisters_halfAt (b := b.drop 8) (n := n) (by simp; omega)
    simpa only [halfAt_drop] using hdrop
  rw [ofFn_halfAt (by omega), hrest, List.take_append_drop]

theorem halfAt_join {n i : ℕ} (r : ℕ → Half) (h : i < n) :
    halfAt (joinRegisters n r) (8 * i) = r i := by
  have hjoin := halfAt_joinRegisters r (r 0) h
  rwa [← halfAt_drop, List.drop_left' List.length_ofFn] at hjoin

theorem eq_wrap_of_aesKeyUnwrap {kek ciphertext : List UInt8} {capacity : ℕ}
    (h : (aesKeyUnwrap kek ciphertext capacity).1 = true) :
    ∃ plaintext n, plaintext.length = n * 8 ∧ 2 ≤ n ∧ ciphertext = aesKeyWrap kek plaintext := by
  unfold aesKeyUnwrap at h
  by_cases hshape : ciphertext.length < 24 ∨ ciphertext.length % 8 ≠ 0
  · rw [if_pos hshape] at h
    cases h
  · rw [if_neg hshape] at h
    obtain ⟨n, hn, hlength⟩ : ∃ n, 2 ≤ n ∧ ciphertext.length = 8 + n * 8 :=
      ⟨ciphertext.length / 8 - 1, by omega, by omega⟩
    have hcount : ciphertext.length / 8 - 1 = n := by omega
    set c : WrapState := (halfAt ciphertext 0, fun i => halfAt ciphertext (8 + 8 * i)) with hc
    set w := unwrapPasses kek n 6 c with hw
    simp only [hcount] at h
    by_cases hcapacity : capacity < n * 8
    · rw [if_pos hcapacity] at h
      cases h
    · rw [if_neg hcapacity] at h
      have hequal : constantTimeEqual (List.ofFn w.1) integrityValue = true := by
        by_contra hne
        rw [if_neg hne] at h
        cases h
      refine ⟨joinRegisters n w.2, n, length_joinRegisters n w.2, hn, ?_⟩
      have hfirst : w.1 = halfAt integrityValue 0 := by
        have hbytes := eq_of_constantTimeEqual (by simp [integrityValue]) hequal
        rw [← hbytes, ← List.append_nil (List.ofFn w.1), halfAt_ofFn]
      have hregisters : (fun i => halfAt (joinRegisters n w.2) (8 * i)) = w.2 := by
        funext i
        by_cases hi : i < n
        · exact halfAt_join w.2 hi
        · rw [hw, unwrapPasses_beyond kek n 6 c (by omega), halfAt_of_length_le (by simp; omega)]
          exact (halfAt_of_length_le (by omega)).symm
      have hdiv : (joinRegisters n w.2).length / 8 = n := by simp
      have hwrap : wrapPasses kek n 6 (w.1, w.2) = c := wrapPasses_unwrap kek n 6 c
      rw [aesKeyWrap, hdiv, hregisters, ← hfirst, hwrap]
      exact (registers_join hlength).symm

/-- Unwrapping gives back what was wrapped under the same key, refuses everything else, and leaves
only zeros where the integrity check fails. -/
theorem aesKeyUnwrap_correct (kek : Block) :
    (∀ plaintext n capacity, plaintext.length = n * 8 → 2 ≤ n → n * 8 ≤ capacity →
      aesKeyUnwrap (List.ofFn kek) (Rfc3394.wrap (Fips197.cipher kek) plaintext) capacity =
        (true, some plaintext)) ∧
    (∀ ciphertext capacity, (∀ plaintext n, plaintext.length = n * 8 → 2 ≤ n →
        ciphertext ≠ Rfc3394.wrap (Fips197.cipher kek) plaintext) →
      (aesKeyUnwrap (List.ofFn kek) ciphertext capacity).1 = false) ∧
    (∀ ciphertext capacity out,
      aesKeyUnwrap (List.ofFn kek) ciphertext capacity = (false, some out) →
      out = List.replicate (ciphertext.length - 8) 0) := by
  refine ⟨fun plaintext n capacity hlength hn hcapacity => ?_, fun ciphertext capacity hno => ?_,
    fun ciphertext capacity out h => ?_⟩
  · rw [← aesKeyWrap_eq]
    exact aesKeyUnwrap_wrap _ hlength hn hcapacity
  · by_contra haccepted
    obtain ⟨plaintext, n, hlength, hn, heq⟩ :=
      eq_wrap_of_aesKeyUnwrap (Bool.not_eq_false _ ▸ haccepted)
    exact hno plaintext n hlength hn (heq.trans (aesKeyWrap_eq kek plaintext))
  · unfold aesKeyUnwrap at h
    dsimp only at h
    split_ifs at h with hshape hcapacity hequal
    · cases h
    · cases h
    · cases h
    · simp only [Prod.mk.injEq, Option.some.injEq, true_and] at h
      rw [← h]
      congr 1
      omega

/-- A text of two blocks. -/
theorem aesKeyUnwrap_correct_two :
    aesKeyUnwrap (List.ofFn fun i : Fin 16 => UInt8.ofNat i)
      (Rfc3394.wrap (Fips197.cipher fun i : Fin 16 => UInt8.ofNat i) (List.replicate 16 7)) 32 =
        (true, some (List.replicate 16 7)) :=
  (aesKeyUnwrap_correct _).1 (List.replicate 16 7) 2 32 rfl le_rfl (by norm_num)

end MicroK.Wpa2
