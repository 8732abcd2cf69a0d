import Mathlib.Tactic

/-!
# Hashing a message block by block

The value of a message under a compression function is the fold of its whole blocks. A hash that
takes its message in pieces keeps the value of what it has seen and the bytes behind the last whole
block; here is how both change when bytes are added.
-/

namespace MicroK.BlockHash

open List Nat

variable {α σ : Type} (size : ℕ) (compress : σ → List α → σ) (iv : σ) (msg : List α)

def blockAt (i : ℕ) : List α := (msg.drop (size * i)).take size

def chain : σ :=
  ((List.range (msg.length / size)).map (blockAt size msg)).foldl compress iv

def rest : List α := msg.drop (size * (msg.length / size))

variable {size compress iv}

theorem length_rest : (rest size msg).length = msg.length % size := by
  rw [rest, length_drop, mod_def]

theorem blockAt_append {msg data : List α} {i : ℕ} (hi : i < msg.length / size) :
    blockAt size (msg ++ data) i = blockAt size msg i := by
  have hle : size * i + size ≤ msg.length := by
    have hstep : size * (i + 1) ≤ size * (msg.length / size) := mul_le_mul_left _ hi
    have hdiv := mul_div_le msg.length size
    rw [mul_add, mul_one] at hstep
    omega
  rw [blockAt, blockAt, drop_append_of_le_length (by omega),
    take_append_of_le_length (by rw [length_drop]; omega)]

theorem blocks_append (msg data : List α) :
    (List.range (msg.length / size)).map (blockAt size (msg ++ data)) =
      (List.range (msg.length / size)).map (blockAt size msg) :=
  map_congr_left fun _ hi => blockAt_append (mem_range.mp hi)

section

variable {msg data : List α} (hshort : (rest size msg).length + data.length < size)
include hshort

theorem div_append_of_lt : (msg ++ data).length / size = msg.length / size := by
  rw [length_rest] at hshort
  have hsplit : (msg ++ data).length = size * (msg.length / size) +
      (msg.length % size + data.length) := by
    rw [length_append, ← add_assoc, div_add_mod]
  rw [hsplit, mul_add_div (by omega), div_eq_of_lt hshort, add_zero]

theorem chain_append_of_lt : chain size compress iv (msg ++ data) = chain size compress iv msg := by
  rw [chain, div_append_of_lt hshort, blocks_append, chain]

theorem rest_append_of_lt : rest size (msg ++ data) = rest size msg ++ data := by
  rw [rest, div_append_of_lt hshort, drop_append_of_le_length (mul_div_le _ _), rest]

end

section

variable {msg data : List α} (hfull : (rest size msg).length + data.length = size) (hpos : 0 < size)
include hfull

theorem length_append_of_eq : (msg ++ data).length = size * (msg.length / size + 1) := by
  rw [length_rest] at hfull
  have hdiv := div_add_mod msg.length size
  rw [length_append, mul_add, mul_one]
  omega

include hpos

theorem div_append_of_eq : (msg ++ data).length / size = msg.length / size + 1 := by
  rw [length_append_of_eq hfull, Nat.mul_div_cancel_left _ hpos]

theorem chain_append_of_eq : chain size compress iv (msg ++ data) =
    compress (chain size compress iv msg) (rest size msg ++ data) := by
  rw [chain, div_append_of_eq hfull hpos, range_succ, map_append, foldl_append,
    blocks_append]
  have hlast : blockAt size (msg ++ data) (msg.length / size) = rest size msg ++ data := by
    rw [blockAt, drop_append_of_le_length (mul_div_le _ _)]
    exact take_of_length_le (by rw [length_append]; exact hfull.le)
  rw [map_singleton, hlast]
  rfl

theorem rest_append_of_eq : rest size (msg ++ data) = [] := by
  rw [rest, div_append_of_eq hfull hpos, ← length_append_of_eq hfull, drop_length]

end

end MicroK.BlockHash
