import MicroK.Runs
import Mathlib.Logic.Function.Basic

/-!
# Coroutines over a shared state

A coroutine works on a shared state in atomic actions. Between them it asks its surroundings for an
answer, and at a window it lets others run before the answer comes. Several parties may be inside
such a coroutine at a time. When nobody enters while another party is inside, every coroutine runs
as it does alone: the state it finds is the one it has left.
-/

namespace MicroK

open Function (update update_of_ne update_self)

/-- An action continues with the state it has found. -/
inductive Coroutine (σ ρ α : Type) where
  | done (a : α)
  | act (f : σ → σ) (k : σ → Coroutine σ ρ α)
  | ask (k : ρ → Coroutine σ ρ α)
  | window (k : ρ → Coroutine σ ρ α)

namespace Coroutine

variable {ι σ ρ α β : Type}

def bind : Coroutine σ ρ α → (α → Coroutine σ ρ β) → Coroutine σ ρ β
  | done a, g => g a
  | act f k, g => act f fun s => (k s).bind g
  | ask k, g => ask fun r => (k r).bind g
  | window k, g => window fun r => (k r).bind g

instance : Monad (Coroutine σ ρ) where
  pure := done
  bind := Coroutine.bind

def atomic (f : σ → σ × α) : Coroutine σ ρ α := act (fun s => (f s).1) fun s => done (f s).2

def advance : Coroutine σ ρ α × σ → ρ → Coroutine σ ρ α × σ
  | (done a, s), _ => (done a, s)
  | (act f k, s), _ => (k s, f s)
  | (ask k, s), r => (k r, s)
  | (window k, s), r => (k r, s)

def atWindow : Coroutine σ ρ α → Bool
  | window _ => true
  | _ => false

/-- An execution in progress: how it began, the answers it has had, and what it has still to do. -/
structure Progress (σ ρ α : Type) where
  begun : Coroutine σ ρ α × σ
  answers : List ρ
  rest : Coroutine σ ρ α

structure Shared (ι σ ρ α : Type) where
  state : σ
  inside : ι → Option (Progress σ ρ α)

inductive Act (ι σ ρ α : Type)
  | enter (i : ι) (c : Coroutine σ ρ α)
  | advance (i : ι) (r : ρ)
  | leave (i : ι)

def enter (s : σ) (c : Coroutine σ ρ α) : Progress σ ρ α := ⟨(c, s), [], c⟩

variable [DecidableEq ι]

def step (s : Shared ι σ ρ α) : Act ι σ ρ α → Shared ι σ ρ α
  | .enter i c => { s with inside := update s.inside i (some (enter s.state c)) }
  | .advance i r =>
    match s.inside i with
    | none => s
    | some p =>
      let next := advance (p.rest, s.state) r
      ⟨next.2, update s.inside i
        (some { p with answers := p.answers ++ [r], rest := next.1 })⟩
  | .leave i => { s with inside := update s.inside i none }

def Act.party : Act ι σ ρ α → ι
  | .enter i _ | .advance i _ | .leave i => i

theorem inside_step_of_ne (s : Shared ι σ ρ α) {a : Act ι σ ρ α} {j : ι} (h : j ≠ a.party) :
    (step s a).inside j = s.inside j := by
  cases a with
  | enter i c => exact update_of_ne h _ _
  | advance i r =>
    cases hi : s.inside i with
    | none => simp only [step, hi]
    | some p =>
      simp only [step, hi]
      exact update_of_ne h _ _
  | leave i => exact update_of_ne h _ _

/-- At most one party is inside, and it has come as far as it would have come alone. -/
structure Exclusive (s : Shared ι σ ρ α) : Prop where
  one : ∀ i j, s.inside i ≠ none → s.inside j ≠ none → i = j
  alone : ∀ i p, s.inside i = some p →
    Runs.run advance p.begun p.answers = (p.rest, s.state)

/-- Who enters finds nobody else inside. -/
def Alone (s : Shared ι σ ρ α) : Act ι σ ρ α → Prop
  | .enter i _ => ∀ j, j ≠ i → s.inside j = none
  | _ => True

variable {s : Shared ι σ ρ α}

theorem Exclusive.of_only {i : ι} (honly : ∀ j, j ≠ i → s.inside j = none)
    (halone : ∀ p, s.inside i = some p →
      Runs.run Coroutine.advance p.begun p.answers = (p.rest, s.state)) : Exclusive s where
  one j k hj hk := by
    have hji : j = i := by_contra fun hne => hj (honly j hne)
    have hki : k = i := by_contra fun hne => hk (honly k hne)
    rw [hji, hki]
  alone j p hp := by
    obtain rfl : j = i := by
      by_contra hne
      rw [honly j hne] at hp
      cases hp
    exact halone p hp

theorem exclusive_enter {i : ι} {c : Coroutine σ ρ α} (honly : ∀ j, j ≠ i → s.inside j = none) :
    Exclusive (step s (.enter i c)) := by
  refine .of_only (i := i) (fun j hne => ?_) (fun p hp => ?_)
  · simpa only [step, update_of_ne hne] using honly j hne
  · obtain rfl : enter s.state c = p := by
      simpa only [step, update_self, Option.some.injEq] using hp
    rfl

theorem exclusive_advance (h : Exclusive s) (i : ι) (r : ρ) :
    Exclusive (step s (.advance i r)) := by
  cases hi : s.inside i with
  | none => simpa only [step, hi] using h
  | some p =>
    refine .of_only (i := i) (fun j hne => ?_) (fun q hq => ?_)
    · simp only [step, hi, update_of_ne hne]
      by_contra hj
      exact hne (h.one j i hj (by simp [hi]))
    · simp only [step, hi, update_self, Option.some.injEq] at hq
      subst hq
      simp only [step, hi, Runs.run_append, h.alone i p hi, Runs.run_cons, Runs.run_nil]

theorem exclusive_leave (h : Exclusive s) (i : ι) : Exclusive (step s (.leave i)) where
  one j k hj hk := by
    have hout : ∀ l, (step s (.leave i)).inside l ≠ none → s.inside l ≠ none := by
      intro l hl hnone
      by_cases hli : l = i
      · subst hli
        exact hl (by simp only [step, update_self])
      · exact hl (by simp only [step, update_of_ne hli, hnone])
    exact h.one j k (hout j hj) (hout k hk)
  alone j p hp := by
    by_cases hji : j = i
    · subst hji
      simp [step] at hp
    · simp only [step, update_of_ne hji] at hp
      exact h.alone j p hp

/-- Entering alone is exactly what keeps the sections exclusive. -/
theorem exclusive_step_iff (h : Exclusive s) (a : Act ι σ ρ α) :
    Exclusive (step s a) ↔ Alone s a := by
  cases a with
  | enter i c =>
    refine ⟨fun hnext j hne => ?_, exclusive_enter⟩
    by_contra hj
    refine hne (hnext.one j i ?_ ?_)
    · simpa only [step, update_of_ne hne] using hj
    · simp [step]
  | advance i r => exact ⟨fun _ => trivial, fun _ => exclusive_advance h i r⟩
  | leave i => exact ⟨fun _ => trivial, fun _ => exclusive_leave h i⟩

end Coroutine

end MicroK
