import Mathlib.Tactic

/-!
# Byte images and little-endian numbers

An image is a buffer of bytes with a size. Reading outside of it is a fault.
-/

namespace MicroK

open List

inductive Outcome (α : Type) where
  | fault
  | endless
  | reject
  | ok (a : α)
  deriving DecidableEq

namespace Outcome

variable {α β : Type}

def bind : Outcome α → (α → Outcome β) → Outcome β
  | fault, _ => fault
  | endless, _ => endless
  | reject, _ => reject
  | ok a, f => f a

instance : Monad Outcome where
  pure := ok
  bind := Outcome.bind

@[simp] theorem ok_bind (a : α) (f : α → Outcome β) : (ok a >>= f) = f a := rfl

@[simp] theorem reject_bind (f : α → Outcome β) : (reject >>= f) = reject := rfl

variable {x : Outcome α} {f : α → Outcome β}

theorem bind_eq_ok {b : β} : (x >>= f) = ok b ↔ ∃ a, x = ok a ∧ f a = ok b := by
  constructor
  · intro h
    cases x with
    | ok a => exact ⟨a, rfl, h⟩
    | fault => cases h
    | endless => cases h
    | reject => cases h
  · rintro ⟨a, rfl, h⟩
    exact h

/-- The outcome of a computation whose rejection is not a rejection of the whole. -/
def attempt : Outcome α → Outcome (Option α)
  | fault => fault
  | endless => endless
  | reject => ok none
  | ok a => ok (some a)

def Sat (x : Outcome α) (P : α → Prop) : Prop :=
  match x with
  | fault | endless => False
  | reject => True
  | ok a => P a

variable {P : α → Prop}

theorem sat_ok {a : α} (h : P a) : Sat (ok a) P := h

theorem sat_reject : Sat reject P := trivial

theorem Sat.mono {P Q : α → Prop} (h : Sat x P) (hPQ : ∀ a, P a → Q a) : Sat x Q := by
  cases x with
  | fault => exact h
  | endless => exact h
  | reject => trivial
  | ok a => exact hPQ a h

theorem Sat.of_eq_ok (h : Sat x P) {a : α} (ha : x = ok a) : P a := by
  subst ha
  exact h

/-- The computation ends, with a value or a rejection. -/
def Halts (x : Outcome α) : Prop := x ≠ fault ∧ x ≠ endless

theorem Sat.ne_fault (h : Sat x P) : x ≠ fault := by
  rintro rfl
  exact h

theorem Sat.ne_endless (h : Sat x P) : x ≠ endless := by
  rintro rfl
  exact h

theorem Sat.halts (h : Sat x P) : x.Halts :=
  ⟨h.ne_fault, h.ne_endless⟩

theorem sat_bind {Q : β → Prop} (hx : Sat x P) (hf : ∀ a, P a → Sat (f a) Q) : Sat (x >>= f) Q := by
  cases x with
  | fault => exact hx
  | endless => exact hx
  | reject => trivial
  | ok a => exact hf a hx

theorem sat_guard {c : Prop} [Decidable c] (h : ¬ c → Sat x P) :
    Sat (if c then reject else x) P := by
  split_ifs with hc
  · trivial
  · exact h hc

theorem sat_attempt (h : Sat x P) : Sat (attempt x) fun o => ∀ a, o = some a → P a := by
  cases x with
  | fault => exact h
  | endless => exact h
  | reject => exact fun a ha => by cases ha
  | ok a =>
    intro b hb
    cases hb
    exact h

theorem Halts.attempt (h : x.Halts) : ∃ o, x.attempt = ok o := by
  cases x with
  | fault => exact absurd rfl h.1
  | endless => exact absurd rfl h.2
  | reject => exact ⟨none, rfl⟩
  | ok a => exact ⟨some a, rfl⟩

/-- The computation ends with a value that satisfies `P`. -/
def Ends (x : Outcome α) (P : α → Prop) : Prop := ∃ a, x = ok a ∧ P a

theorem ends_pure {a : α} (h : P a) : Ends (pure a) P := ⟨a, rfl, h⟩

theorem ends_bind {Q : β → Prop}
    (hx : Ends x P) (hf : ∀ a, P a → Ends (f a) Q) : Ends (x >>= f) Q := by
  obtain ⟨a, rfl, ha⟩ := hx
  exact hf a ha

theorem ends_ite {c : Prop} [Decidable c] {x y : Outcome α} (hx : c → Ends x P)
    (hy : ¬ c → Ends y P) : Ends (if c then x else y) P := by
  split_ifs with hc
  · exact hx hc
  · exact hy hc

theorem ends_guard {c : Prop} [Decidable c] {a : α} {y : Outcome α} (ha : P a)
    (hy : ¬ c → Ends y P) : Ends (if c then pure a else y) P := ends_ite (fun _ => ends_pure ha) hy

theorem exists_ok_bind (hx : ∃ a, x = ok a)
    (hf : ∀ a, ∃ b, f a = ok b) : ∃ b, (x >>= f) = ok b := by
  obtain ⟨a, rfl⟩ := hx
  exact hf a

end Outcome

def leValue : List UInt8 → ℕ
  | [] => 0
  | b :: bs => b.toNat + 256 * leValue bs

def leBytes : ℕ → ℕ → List UInt8
  | 0, _ => []
  | n + 1, v => UInt8.ofNat v :: leBytes n (v / 256)

@[simp] theorem length_leBytes (n v : ℕ) : (leBytes n v).length = n := by
  induction n generalizing v with
  | zero => rfl
  | succ n ih => simp [leBytes, ih]

theorem leValue_lt (bs : List UInt8) : leValue bs < 256 ^ bs.length := by
  induction bs with
  | nil => simp [leValue]
  | cons b bs ih =>
    have hb : b.toNat < 256 := b.toNat_lt
    rw [leValue, length_cons, pow_succ]
    omega

theorem leValue_leBytes {n v : ℕ} (h : v < 256 ^ n) : leValue (leBytes n v) = v := by
  induction n generalizing v with
  | zero =>
    obtain rfl : v = 0 := by simpa using h
    rfl
  | succ n ih =>
    have hdiv : v / 256 < 256 ^ n := by omega
    rw [leBytes, leValue, ih hdiv, UInt8.toNat_ofNat']
    omega

theorem leBytes_leValue (bs : List UInt8) : leBytes bs.length (leValue bs) = bs := by
  induction bs with
  | nil => rfl
  | cons b bs ih =>
    have hb : b.toNat < 256 := b.toNat_lt
    have hdiv : (b.toNat + 256 * leValue bs) / 256 = leValue bs := by omega
    rw [length_cons, leBytes, leValue, hdiv, ih]
    congr 1
    rw [← UInt8.toNat_inj, UInt8.toNat_ofNat']
    omega

structure Image where
  size : ℕ
  byte : ℕ → UInt8

namespace Image

variable (f : Image) (off n : ℕ)

def bytes : List UInt8 := (List.range n).map fun i => f.byte (off + i)

@[simp] theorem length_bytes : (f.bytes off n).length = n := by
  simp [bytes]

def readBytes : Outcome (List UInt8) :=
  if off + n ≤ f.size then .ok (f.bytes off n) else .fault

def readLe : Outcome ℕ :=
  if off + n ≤ f.size then .ok (leValue (f.bytes off n)) else .fault

variable {f} {off n : ℕ}

theorem readBytes_eq (h : off + n ≤ f.size) : f.readBytes off n = .ok (f.bytes off n) := if_pos h

theorem readLe_eq (h : off + n ≤ f.size) : f.readLe off n = .ok (leValue (f.bytes off n)) :=
  if_pos h

theorem leValue_bytes_lt (f : Image) (off n : ℕ) : leValue (f.bytes off n) < 256 ^ n := by
  simpa using leValue_lt (f.bytes off n)

theorem sat_readLe (h : off + n ≤ f.size) : (f.readLe off n).Sat fun v => v < 256 ^ n := by
  rw [readLe_eq h]
  exact Outcome.sat_ok (leValue_bytes_lt f off n)

theorem sat_readBytes (h : off + n ≤ f.size) :
    (f.readBytes off n).Sat fun l => l.length = n := by
  rw [readBytes_eq h]
  exact Outcome.sat_ok (length_bytes f off n)

theorem bytes_add (f : Image) (off m n : ℕ) :
    f.bytes off (m + n) = f.bytes off m ++ f.bytes (off + m) n := by
  simp only [bytes, range_add, map_append, map_map]
  congr 1
  exact map_congr_left fun i _ => by simp only [Function.comp_apply, Nat.add_assoc]

def Holds (f : Image) (off : ℕ) (l : List UInt8) : Prop :=
  off + l.length ≤ f.size ∧ f.bytes off l.length = l

theorem holds_append {a b : List UInt8} :
    f.Holds off (a ++ b) ↔ f.Holds off a ∧ f.Holds (off + a.length) b := by
  unfold Holds
  rw [length_append, bytes_add]
  constructor
  · rintro ⟨hle, hbytes⟩
    obtain ⟨ha, hb⟩ := append_inj hbytes (by simp)
    exact ⟨⟨by omega, ha⟩, by omega, hb⟩
  · rintro ⟨⟨-, ha⟩, hle, hb⟩
    exact ⟨by omega, by rw [ha, hb]⟩

theorem Holds.readBytes {l : List UInt8} (h : f.Holds off l) (hn : n ≤ l.length) :
    f.readBytes off n = .ok (l.take n) := by
  rw [readBytes_eq (by have := h.1; omega)]
  congr 1
  conv_rhs => rw [← h.2]
  obtain ⟨m, hm⟩ := Nat.exists_eq_add_of_le hn
  rw [hm, bytes_add, take_left' (length_bytes f off n)]

theorem Holds.leValue {v : ℕ} (h : f.Holds off (leBytes n v)) (hv : v < 256 ^ n) :
    MicroK.leValue (f.bytes off n) = v := by
  have hbytes := h.2
  rw [length_leBytes] at hbytes
  rw [hbytes, leValue_leBytes hv]

theorem Holds.readLe {v : ℕ} (h : f.Holds off (leBytes n v)) (hv : v < 256 ^ n) :
    f.readLe off n = .ok v := by
  have hle := h.1
  rw [length_leBytes] at hle
  rw [readLe_eq hle, h.leValue hv]

end Image

variable (l : List UInt8)

def Image.ofList : Image := ⟨l.length, fun i => l.getD i 0⟩

/-- The bytes of a list from the number they spell. -/
theorem Image.ofList_eq :
    Image.ofList l = ⟨l.length, fun i => UInt8.ofNat (leValue l >>> (8 * i))⟩ := by
  refine congrArg (Image.mk _) (funext fun i => ?_)
  induction l generalizing i with
  | nil => simp [leValue]
  | cons b bs ih =>
    have hb : b.toNat < 256 := b.toNat_lt
    cases i with
    | zero =>
      rw [getD_cons_zero, ← UInt8.toNat_inj, UInt8.toNat_ofNat', leValue]
      omega
    | succ i =>
      rw [getD_cons_succ, ih, leValue, Nat.mul_succ, Nat.add_comm (8 * i) 8, Nat.shiftRight_add,
        show (b.toNat + 256 * leValue bs) >>> 8 = leValue bs by
          omega]

theorem Image.holds_ofList : (Image.ofList l).Holds 0 l := by
  refine ⟨by simp [Image.ofList], ext_getElem (by simp) fun i h₁ h₂ => ?_⟩
  simp [Image.ofList, Image.bytes, h₂]

end MicroK
