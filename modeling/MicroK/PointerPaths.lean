import Mathlib.Tactic

/-!
# Following pointers through tables

A table is behind a pointer, or cannot be read. Following a path of indices gives the pointer at
its end; zero stands for no pointer.
-/

namespace MicroK

variable (table : ℕ → Option (ℕ → ℕ))

def followPath : ℕ → List ℕ → ℕ
  | p, [] => p
  | p, i :: path =>
    if p = 0 then 0
    else
      match table p with
      | none => 0
      | some pointers => followPath (pointers i) path

/-- Some pointer on the path is zero, or some table on it cannot be read. -/
inductive PathBroken : ℕ → List ℕ → Prop
  | missing (path : List ℕ) : PathBroken 0 path
  | unreadable {p i : ℕ} {path : List ℕ} (h : table p = none) : PathBroken p (i :: path)
  | later {p i : ℕ} {path : List ℕ} {pointers : ℕ → ℕ} (h : table p = some pointers)
      (hbroken : PathBroken (pointers i) path) : PathBroken p (i :: path)

variable {table}

theorem followPath_zero (path : List ℕ) : followPath table 0 path = 0 := by
  cases path with
  | nil => rfl
  | cons i path => exact if_pos rfl

variable {path : List ℕ}

theorem followPath_of_none {p i : ℕ} (h : table p = none) : followPath table p (i :: path) = 0 := by
  rw [followPath, h]
  exact ite_self 0

theorem followPath_of_some {p i : ℕ} {pointers : ℕ → ℕ} (hp : p ≠ 0) (h : table p = some pointers) :
    followPath table p (i :: path) = followPath table (pointers i) path := by
  rw [followPath, if_neg hp, h]

theorem followPath_cons (p i : ℕ) (path : List ℕ) :
    followPath table p (i :: path) = followPath table (followPath table p [i]) path := by
  by_cases hp : p = 0
  · rw [hp, followPath_zero, followPath_zero, followPath_zero]
  cases h : table p with
  | none => rw [followPath_of_none h, followPath_of_none h, followPath_zero]
  | some pointers => rw [followPath_of_some hp h, followPath_of_some hp h, followPath]

theorem followPath_eq_zero_iff {p : ℕ} : followPath table p path = 0 ↔ PathBroken table p path := by
  constructor
  · intro h
    induction path generalizing p with
    | nil =>
      obtain rfl : p = 0 := h
      exact .missing []
    | cons i path ih =>
      by_cases hp : p = 0
      · subst hp
        exact .missing _
      cases htable : table p with
      | none => exact .unreadable htable
      | some pointers =>
        rw [followPath_of_some hp htable] at h
        exact .later htable (ih h)
  · intro h
    induction h with
    | missing path => exact followPath_zero path
    | unreadable h => exact followPath_of_none h
    | @later p i path pointers h _ ih =>
      by_cases hp : p = 0
      · rw [hp, followPath_zero]
      · rw [followPath_of_some hp h, ih]

end MicroK
