import Mathlib.Data.Nat.ModEq

/-!
# Searching a ring

`search` goes round a ring of `n` places and skips those of which `skip` holds, for at most as many
steps as it has fuel. With fuel `n` it meets every place, so it stops at one that is not skipped
when there is any, and it comes to the place just before its start last of all.
-/

namespace MicroK.CircularSearch

open Nat

def search (skip : ℕ → Bool) (n : ℕ) : ℕ → ℕ → ℕ
  | 0, i => i
  | fuel + 1, i => if skip i then search skip n fuel ((i + 1) % n) else i

variable {n : ℕ}

theorem search_spec (skip : ℕ → Bool) (fuel : ℕ) {i : ℕ} (hi : i < n) :
    ∃ k ≤ fuel, search skip n fuel i = (i + k) % n ∧ (∀ j < k, skip ((i + j) % n) = true) ∧
      (k < fuel → skip ((i + k) % n) = false) := by
  induction fuel generalizing i with
  | zero => exact ⟨0, le_rfl, (mod_eq_of_lt hi).symm, fun j hj => absurd hj (not_lt_zero j),
      fun h => absurd h (lt_irrefl 0)⟩
  | succ fuel ih =>
    rw [search]
    by_cases hskip : skip i = true
    · rw [if_pos hskip]
      obtain ⟨k, hk, hres, hall, hstop⟩ := ih (mod_lt (i + 1) (zero_lt_of_lt hi))
      have hshift : ∀ j, ((i + 1) % n + j) % n = (i + (j + 1)) % n := by
        intro j
        rw [mod_add_mod, add_assoc, add_comm 1 j]
      refine ⟨k + 1, succ_le_succ hk, by rw [hres, hshift], fun j hj => ?_, fun h => ?_⟩
      · cases j with
        | zero =>
          rw [add_zero, mod_eq_of_lt hi]
          exact hskip
        | succ j =>
          rw [← hshift]
          exact hall j (lt_of_succ_lt_succ hj)
      · rw [← hshift]
        exact hstop (lt_of_succ_lt_succ h)
    · rw [if_neg hskip]
      refine ⟨0, zero_le _, (mod_eq_of_lt hi).symm,
        fun j hj => absurd hj (not_lt_zero j), fun _ => ?_⟩
      rw [add_zero, mod_eq_of_lt hi]
      exact Bool.not_eq_true _ ▸ hskip

theorem exists_steps {i j : ℕ} (hi : i < n) (hj : j < n) : ∃ k < n, (i + k) % n = j := by
  by_cases hij : i ≤ j
  · exact ⟨j - i, by omega, by rw [Nat.add_sub_cancel' hij, Nat.mod_eq_of_lt hj]⟩
  · refine ⟨j + n - i, by omega, ?_⟩
    rw [Nat.add_sub_cancel' (by omega), Nat.add_mod_right, Nat.mod_eq_of_lt hj]

variable {skip : ℕ → Bool} {i : ℕ} (hi : i < n)
include hi

theorem search_lt (fuel : ℕ) : search skip n fuel i < n := by
  obtain ⟨k, -, hres, -⟩ := search_spec skip fuel hi
  rw [hres]
  exact mod_lt _ (zero_lt_of_lt hi)

/-- A place that is not skipped is not passed. -/
theorem search_le {m : ℕ} (hm : m < n) (hskip : skip ((i + m) % n) = false) :
    ∃ k ≤ m, search skip n n i = (i + k) % n ∧ skip ((i + k) % n) = false := by
  obtain ⟨k, -, hres, hall, hstop⟩ := search_spec skip n hi
  have hkm : k ≤ m := by
    by_contra hlt
    rw [hall m (by omega)] at hskip
    cases hskip
  exact ⟨k, hkm, hres, hstop (by omega)⟩

theorem search_found {j : ℕ} (hj : j < n) (hjskip : skip j = false) :
    skip (search skip n n i) = false := by
  obtain ⟨m, hm, rfl⟩ := exists_steps hi hj
  obtain ⟨k, -, hres, hstop⟩ := search_le hi hm hjskip
  rwa [hres]

theorem search_last {c j : ℕ} (hc : c < n) (hnext : i = (c + 1) % n) (hj : j < n)
    (hjskip : skip j = false) (hjc : j ≠ c) : search skip n n i ≠ c := by
  obtain ⟨m, hm, rfl⟩ := exists_steps hi hj
  obtain ⟨k, hkm, hres, -⟩ := search_le hi hm hjskip
  have hsteps : ∀ l < n, (i + l) % n = c → l = n - 1 := by
    intro l hl hlc
    rw [hnext, mod_add_mod] at hlc
    rcases lt_or_ge (c + 1 + l) n with hlt | hge
    · rw [mod_eq_of_lt hlt] at hlc
      omega
    · rw [mod_eq_sub_mod hge, mod_eq_of_lt (by omega)] at hlc
      omega
  intro hfound
  rw [hres] at hfound
  have hklast := hsteps k (by omega) hfound
  obtain rfl : m = k := by omega
  exact hjc hfound

end MicroK.CircularSearch
