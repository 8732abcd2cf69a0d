import Mathlib

/-!
# Showing tokens

`llm_token_display` copies a token that starts with the marker U+2581 into a buffer of the caller,
with a space for the marker. The loop leaves room for the space but not for the final zero, so a
token that fills the buffer has its zero written behind the end.
-/

namespace MicroK.Llm

open List

/-- A C string is given by its bytes in front of the zero. -/
def displayLoop (bufsize : ℕ) : List UInt8 → ℕ → List (ℕ × UInt8)
  | [], i => [(1 + i, 0)]
  | c :: rest, i =>
    if c ≠ 0 ∧ i + 1 < bufsize then (1 + i, c) :: displayLoop bufsize rest (i + 1)
    else [(1 + i, 0)]

variable (bufsize : ℕ)

/-- The stores into the buffer, in order, or `none` when the token itself is returned. -/
def tokenDisplay : List UInt8 → Option (List (ℕ × UInt8))
  | 0xE2 :: 0x96 :: 0x81 :: rest => some ((0, 0x20) :: displayLoop bufsize rest 0)
  | _ => none

def cText (l : List UInt8) : List UInt8 := l.takeWhile (· ≠ 0)

/-- The string that the caller finds at the returned address. -/
def shownText (raw : List UInt8) : List UInt8 :=
  match tokenDisplay bufsize raw with
  | none => cText raw
  | some stores => cText (stores.map Prod.snd)

/-- The token with a space for a leading marker, cut to fit if it goes into the buffer. -/
def displayText : List UInt8 → List UInt8
  | 0xE2 :: 0x96 :: 0x81 :: rest => (0x20 :: cText rest).take (bufsize - 1)
  | raw => cText raw

/-- Every store is inside the buffer and the string is as it should be. -/
def DisplayOk (raw : List UInt8) : Prop :=
  (∀ stores ∈ tokenDisplay bufsize raw, ∀ w ∈ stores, w.1 < bufsize) ∧
    shownText bufsize raw = displayText bufsize raw

/-- The loop copies as many bytes as fit behind the space and then stores the zero. -/
theorem displayLoop_eq (rest : List UInt8) (i : ℕ) :
    displayLoop bufsize rest i =
      (((cText rest).take (bufsize - 1 - i)).zipIdx (1 + i)).map Prod.swap ++
        [(1 + i + ((cText rest).take (bufsize - 1 - i)).length, 0)] := by
  induction rest generalizing i with
  | nil => simp [displayLoop, cText]
  | cons c rest ih =>
    rw [displayLoop]
    by_cases hc : c = 0
    · simp [hc, cText]
    by_cases hi : i + 1 < bufsize
    · obtain ⟨k, hk⟩ := Nat.exists_eq_add_of_lt hi
      have hroom : bufsize - 1 - i = k + 1 := by omega
      have hnext : bufsize - 1 - (i + 1) = k := by omega
      have htext : cText (c :: rest) = c :: cText rest := by simp [cText, hc]
      rw [if_pos ⟨hc, hi⟩, ih, hroom, hnext, htext, take_succ_cons, zipIdx_cons]
      simp only [map_cons, Prod.swap_prod_mk, cons_append, length_cons]
      congr 4
      omega
    · have hroom : bufsize - 1 - i = 0 := by omega
      simp [hroom, hi]

variable {bufsize : ℕ} {rest : List UInt8}

theorem mem_cText_ne_zero {c : UInt8} (h : c ∈ cText rest) : c ≠ 0 := by
  simpa using mem_takeWhile_imp h

theorem shownText_marked : shownText bufsize (0xE2 :: 0x96 :: 0x81 :: rest) =
    0x20 :: (cText rest).take (bufsize - 1) := by
  have hvalues : (displayLoop bufsize rest 0).map Prod.snd =
      (cText rest).take (bufsize - 1) ++ [0] := by
    rw [displayLoop_eq, map_append, map_map]
    congr 1
    exact zipIdx_map_fst ..
  change cText (0x20 :: (displayLoop bufsize rest 0).map Prod.snd) = _
  rw [hvalues, cText, takeWhile_cons_of_pos (by decide), takeWhile_append_of_pos]
  · simp
  · exact fun c hc => decide_eq_true (mem_cText_ne_zero (mem_of_mem_take hc))

/-- The last store is the one of the zero. -/
theorem stores_lt_iff : (∀ w ∈ displayLoop bufsize rest 0, w.1 < bufsize) ↔
    (cText rest).length + 2 ≤ bufsize := by
  rw [displayLoop_eq]
  simp only [mem_append, mem_singleton, length_take]
  constructor
  · intro h
    have hlast := h _ (.inr rfl)
    omega
  · rintro h w (hw | rfl)
    · obtain ⟨v, hv, rfl⟩ := mem_map.mp hw
      have hlt := snd_lt_add_of_mem_zipIdx hv
      rw [length_take] at hlt
      dsimp only [Prod.fst_swap]
      omega
    · dsimp only
      omega

/-- The display is right exactly when the token has no marker or the text behind it leaves two bytes
of the buffer, one for the space and one for the zero. -/
theorem displayOk_iff (bufsize : ℕ) (raw : List UInt8) :
    DisplayOk bufsize raw ↔
      ∀ rest, raw = 0xE2 :: 0x96 :: 0x81 :: rest → (cText rest).length + 2 ≤ bufsize := by
  by_cases hmarked : ∃ rest, raw = 0xE2 :: 0x96 :: 0x81 :: rest
  · obtain ⟨rest, rfl⟩ := hmarked
    have hiff : DisplayOk bufsize (0xE2 :: 0x96 :: 0x81 :: rest) ↔
        (cText rest).length + 2 ≤ bufsize := by
      unfold DisplayOk
      rw [shownText_marked]
      simp only [tokenDisplay, displayText, Option.mem_some_iff, forall_eq', forall_mem_cons,
        stores_lt_iff]
      refine ⟨fun h => h.1.2, fun h => ⟨⟨by omega, h⟩, ?_⟩⟩
      rw [take_of_length_le (by omega), take_of_length_le (by simp; omega)]
    rw [hiff]
    exact ⟨fun h _ heq => by cases heq; exact h, fun h => h rest rfl⟩
  · have hnone : tokenDisplay bufsize raw = none ∧ displayText bufsize raw = cText raw := by
      unfold tokenDisplay displayText
      split
      · exact absurd ⟨_, rfl⟩ hmarked
      · exact ⟨rfl, rfl⟩
    refine iff_of_true ⟨by simp [hnone.1], ?_⟩ fun rest heq => absurd ⟨rest, heq⟩ hmarked
    rw [shownText, hnone.1, hnone.2]

/-- The marker and 79 more bytes: the zero goes to index 80 of a buffer of 80 bytes. -/
theorem display_overflows : ∃ stores,
    tokenDisplay 80 (0xE2 :: 0x96 :: 0x81 :: List.replicate 79 0x61) = some stores ∧
      (80, 0) ∈ stores := by
  refine ⟨_, rfl, ?_⟩
  decide

end MicroK.Llm
