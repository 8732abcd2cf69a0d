import Mathlib.Data.List.Basic

/-!
# Guarded runs of a deterministic machine

A machine is a function `step : σ → ι → σ`. `run` folds it over a list of inputs, and
`Admissible ok` asks that every input meets the guard `ok` in the state in which it is consumed.
An invariant that every guarded step preserves holds after every admissible run, and hence in
every state that such a run passes through.
-/

namespace MicroK.Runs

variable {σ ι : Type*}

def run (step : σ → ι → σ) : σ → List ι → σ
  | s, [] => s
  | s, i :: is => run step (step s i) is

def Admissible (step : σ → ι → σ) (ok : σ → ι → Prop) : σ → List ι → Prop
  | _, [] => True
  | s, i :: is => ok s i ∧ Admissible step ok (step s i) is

instance decidableAdmissible (step : σ → ι → σ) (ok : σ → ι → Prop) [∀ s i, Decidable (ok s i)] :
    (s : σ) → (is : List ι) → Decidable (Admissible step ok s is)
  | _, [] => isTrue trivial
  | s, i :: is =>
    haveI := decidableAdmissible step ok (step s i) is
    inferInstanceAs (Decidable (ok s i ∧ Admissible step ok (step s i) is))

variable {step : σ → ι → σ} {ok : σ → ι → Prop} (s : σ)

@[simp] theorem run_nil : run step s [] = s := rfl

@[simp] theorem run_cons (i : ι) (is : List ι) :
    run step s (i :: is) = run step (step s i) is := rfl

theorem run_append (is js : List ι) : run step s (is ++ js) = run step (run step s is) js := by
  induction is generalizing s with
  | nil => rfl
  | cons i is ih => exact ih (step s i)

theorem admissible_append (is js : List ι) : Admissible step ok s (is ++ js) ↔
      Admissible step ok s is ∧ Admissible step ok (run step s is) js := by
  induction is generalizing s with
  | nil => simp [Admissible]
  | cons i is ih => simp only [List.cons_append, Admissible, run_cons, ih, and_assoc]

theorem admissible_iff_forall (is : List ι) : Admissible step ok s is ↔
    ∀ pre i post, is = pre ++ i :: post → ok (run step s pre) i := by
  constructor
  · rintro h pre i post rfl
    exact ((admissible_append s pre (i :: post)).mp h).2.1
  · intro h
    induction is generalizing s with
    | nil => trivial
    | cons i is ih =>
      refine ⟨h [] i is rfl, ih (step s i) fun pre j post his => ?_⟩
      exact h (i :: pre) j post (by rw [his, List.cons_append])

variable {I : σ → Prop}

theorem run_invariant (hstep : ∀ s i, I s → ok s i → I (step s i))
    (s : σ) (is : List ι) (hs : I s) (his : Admissible step ok s is) : I (run step s is) := by
  induction is generalizing s with
  | nil => exact hs
  | cons i is ih => exact ih (step s i) (hstep s i hs his.1) his.2

theorem run_invariant_of_step (hstep : ∀ s i, I s → I (step s i))
    (s : σ) (is : List ι) (hs : I s) : I (run step s is) := by
  induction is generalizing s with
  | nil => exact hs
  | cons i is ih => exact ih (step s i) (hstep s i hs)

/-- Where the guard is exactly what keeps the invariant, the invariant holds in every state of a
run exactly when the run is admissible. -/
theorem invariant_iff_admissible (hstep : ∀ s i, I s → (I (step s i) ↔ ok s i))
    (s : σ) (is : List ι) (hs : I s) :
    (∀ n, I (run step s (is.take n))) ↔ Admissible step ok s is := by
  induction is generalizing s with
  | nil => simpa [Admissible] using hs
  | cons i is ih =>
    constructor
    · intro h
      have hnext : I (step s i) := h 1
      exact ⟨(hstep s i hs).mp hnext, (ih _ hnext).mp fun n => h (n + 1)⟩
    · rintro ⟨hok, hrest⟩ n
      cases n with
      | zero => exact hs
      | succ n => exact (ih _ ((hstep s i hs).mpr hok)).mpr hrest n

/-- A property that survives every input outside a set `B` survives a run that avoids it. -/
theorem run_preserves_of_avoids {I P : σ → Prop} {B : ι → Prop}
    (hinv : ∀ s i, I s → I (step s i))
    (hstep : ∀ s i, I s → ¬ B i → P s → P (step s i))
    (s : σ) (is : List ι) (hs : I s) (hP : P s) (his : ∀ i ∈ is, ¬ B i) :
    P (run step s is) := by
  induction is generalizing s with
  | nil => exact hP
  | cons i is ih =>
    have hi : ¬ B i := his i List.mem_cons_self
    exact ih (step s i) (hinv s i hs) (hstep s i hs hi hP)
      (fun j hj => his j (List.mem_cons_of_mem i hj))

end MicroK.Runs
