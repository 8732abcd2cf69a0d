import Mathlib.Data.List.DropRight
import Mathlib.Data.Nat.Digits.Defs
import MicroK.NetState

/-!
# Addresses as text

The network configuration, the reader `parse_ipv4` of its addresses and the text that
`net_save_config` writes for an address, which the reader reads back.
-/

namespace MicroK.NetConfig

open List Nat

open Net (Ip asciiBytes)

inductive Mode
  | dhcp
  | static
deriving DecidableEq

structure Hostname where
  bytes : List UInt8
  length_lt : bytes.length < 32
  zero_not_mem : 0 ∉ bytes
deriving DecidableEq

/-- `net_config` and the settings of the LLM service, whose port is never zero. -/
structure Config where
  mode : Mode
  ip : Ip
  netmask : Ip
  gateway : Ip
  dns : Ip
  hostname : Hostname
  hasConfig : Bool
  llmOn : Bool
  llmPort : UInt16
  llmPort_ne : llmPort ≠ 0
deriving DecidableEq

def zeroIp : Ip := #v[0, 0, 0, 0]

def netInit : Config where
  mode := .dhcp
  ip := zeroIp
  netmask := #v[255, 255, 255, 0]
  gateway := zeroIp
  dns := zeroIp
  hostname := ⟨asciiBytes "microk", by decide, by decide⟩
  hasConfig := false
  llmOn := false
  llmPort := 1234
  llmPort_ne := by decide

def isDigit (c : UInt8) : Bool := 0x30 ≤ c && c ≤ 0x39

/-- The value of decimal digits as long as it stays within a limit. -/
def decimal (limit : ℕ) : List UInt8 → ℕ → Option ℕ
  | [], value => some value
  | c :: rest, value =>
    let value := value * 10 + (c.toNat - 0x30)
    if limit < value then none else decimal limit rest value

/-- A number in front of the text, and the text behind it. -/
def parseOctet (text : List UInt8) : Option (UInt8 × List UInt8) :=
  match decimal 255 (text.takeWhile isDigit) 0 with
  | none => none
  | some value =>
    if text.takeWhile isDigit = [] then none
    else some (UInt8.ofNat value, text.dropWhile isDigit)

def skipDot : List UInt8 → Option (List UInt8)
  | 0x2E :: rest => some rest
  | _ => none

def parseIpv4 (text : List UInt8) : Option Ip := do
  let (a, text) ← parseOctet text
  let text ← skipDot text
  let (b, text) ← parseOctet text
  let text ← skipDot text
  let (c, text) ← parseOctet text
  let text ← skipDot text
  let (d, text) ← parseOctet text
  if text = [] then some #v[a, b, c, d] else none

/-- The decimal digits of a number. -/
def decimalText (n : ℕ) : List UInt8 :=
  if n = 0 then [0x30] else ((Nat.digits 10 n).map fun d => UInt8.ofNat (0x30 + d)).reverse

theorem isDigit_digit {d : ℕ} (h : d < 10) : isDigit (UInt8.ofNat (0x30 + d)) = true := by
  interval_cases d <;> rfl

theorem decimalText_of_lt {n : ℕ} (h : n < 10) : decimalText n = [UInt8.ofNat (0x30 + n)] := by
  rw [decimalText]
  split_ifs with hzero
  · rw [hzero]
    rfl
  · rw [digits_of_lt 10 n hzero h]
    rfl

theorem decimalText_of_le {n : ℕ} (h : 10 ≤ n) :
    decimalText n = decimalText (n / 10) ++ [UInt8.ofNat (0x30 + n % 10)] := by
  rw [decimalText, if_neg (by omega), decimalText, if_neg (by omega),
    digits_def' (by norm_num) (by omega)]
  simp

theorem decimalText_induction {P : ℕ → List UInt8 → Prop}
    (one : ∀ n, n < 10 → P n [UInt8.ofNat (0x30 + n)])
    (more : ∀ n, 10 ≤ n → P (n / 10) (decimalText (n / 10)) →
      P n (decimalText (n / 10) ++ [UInt8.ofNat (0x30 + n % 10)])) (n : ℕ) :
        P n (decimalText n) := by
  induction n using Nat.strong_induction_on with
  | _ n ih =>
    rcases Nat.lt_or_ge n 10 with h | h
    · rw [decimalText_of_lt h]
      exact one n h
    · rw [decimalText_of_le h]
      exact more n h (ih (n / 10) (by omega))

theorem isDigit_of_mem_decimalText {n : ℕ} {c : UInt8} (hc : c ∈ decimalText n) :
    isDigit c = true := by
  refine decimalText_induction (P := fun _ l => ∀ c ∈ l, isDigit c = true) (fun n hn c hc => ?_)
    (fun n hn ih c hc => ?_) n c hc
  · rw [mem_singleton.1 hc]
    exact isDigit_digit hn
  · rcases mem_append.1 hc with hc | hc
    · exact ih c hc
    · rw [mem_singleton.1 hc]
      exact isDigit_digit (mod_lt _ (by norm_num))

theorem decimalText_ne_nil (n : ℕ) : decimalText n ≠ [] :=
  decimalText_induction (P := fun _ l => l ≠ []) (fun _ _ => by simp) (fun _ _ _ => by simp) n

theorem takeWhile_dropWhile_append {p : UInt8 → Bool} {xs rest : List UInt8}
    (hxs : ∀ c ∈ xs, p c = true) (hrest : ∀ c ∈ rest.head?, p c = false) :
    (xs ++ rest).takeWhile p = xs ∧ (xs ++ rest).dropWhile p = rest := by
  rw [takeWhile_append_of_pos hxs, dropWhile_append_of_pos hxs]
  cases rest with
  | nil => simp
  | cons c rest => simp [hrest c rfl]

theorem parseOctet_append {ds rest : List UInt8} {n : ℕ} (hds : ∀ c ∈ ds, isDigit c = true)
    (hne : ds ≠ []) (hn : decimal 255 ds 0 = some n)
    (hrest : ∀ c ∈ rest.head?, isDigit c = false) :
    parseOctet (ds ++ rest) = some (UInt8.ofNat n, rest) := by
  obtain ⟨htake, hdrop⟩ := takeWhile_dropWhile_append hds hrest
  rw [parseOctet, htake, hdrop, hn]
  dsimp only
  rw [if_neg hne]

variable (ip : Ip)

end MicroK.NetConfig
