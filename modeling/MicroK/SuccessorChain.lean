import Mathlib.Data.List.Basic
import Mathlib.Data.List.Nodup

/-!
# Chains of a successor function

`Leads next ok stop h l` says that following `next` from `h` passes through the elements of `l`,
all of them `ok`, and then meets a value where the walk stops. When no `ok` value is a stop, the
list is determined by its head and has no repetition. A chain depends only on the successors of
its own elements.
-/

namespace MicroK.SuccessorChain

open List

variable {α : Type*}

def Leads (next : α → α) (ok stop : α → Prop) : α → List α → Prop
  | h, [] => stop h
  | h, c :: cs => c = h ∧ ok c ∧ Leads next ok stop (next c) cs

variable {next next' : α → α} {ok stop : α → Prop} {h c d : α} {l l' : List α}

variable (hl : Leads next ok stop h l)
include hl

theorem Leads.ok_of_mem (hc : c ∈ l) : ok c := by
  induction l generalizing h with
  | nil => cases hc
  | cons d ds ih =>
    rcases mem_cons.1 hc with rfl | hc
    · exact hl.2.1
    · exact ih hl.2.2 hc

theorem Leads.head_mem (hne : l ≠ []) : h ∈ l := by
  cases l with
  | nil => exact absurd rfl hne
  | cons d ds => exact hl.1 ▸ mem_cons_self

theorem Leads.congr (heq : ∀ c ∈ l, next' c = next c) : Leads next' ok stop h l := by
  induction l generalizing h with
  | nil => exact hl
  | cons d ds ih =>
    refine ⟨hl.1, hl.2.1, ?_⟩
    rw [heq d mem_cons_self]
    exact ih hl.2.2 (fun c hc => heq c (mem_cons_of_mem d hc))

theorem Leads.exists_suffix (hc : c ∈ l) :
    ∃ front rest, l = front ++ c :: rest ∧ Leads next ok stop c (c :: rest) := by
  induction l generalizing h with
  | nil => cases hc
  | cons d ds ih =>
    rcases mem_cons.1 hc with rfl | hc
    · exact ⟨[], ds, rfl, rfl, hl.2⟩
    · obtain ⟨front, rest, he, hrest⟩ := ih hl.2.2 hc
      exact ⟨d :: front, rest, by rw [he, cons_append], hrest⟩

theorem Leads.next_mem_or_stop (hc : c ∈ l) : next c ∈ l ∨ stop (next c) := by
  induction l generalizing h with
  | nil => cases hc
  | cons d ds ih =>
    rcases mem_cons.1 hc with rfl | hc
    · cases ds with
      | nil => exact .inr hl.2.2
      | cons e es =>
        have he : e = next c := hl.2.2.1
        exact .inl (he ▸ .tail _ mem_cons_self)
    · exact (ih hl.2.2 hc).imp_left (mem_cons_of_mem d)

omit hl

theorem leads_range' {next : ℕ → ℕ} {ok stop : ℕ → Prop} {a n : ℕ}
    (hok : ∀ c, a ≤ c → c ≤ a + n → ok c) (hnext : ∀ c, a ≤ c → c < a + n → next c = c + 1)
    (hstop : stop (next (a + n))) : Leads next ok stop a (List.range' a (n + 1)) := by
  induction n generalizing a with
  | zero => exact ⟨rfl, hok a (Nat.le_refl _) (Nat.le_refl _), hstop⟩
  | succ n ih =>
    refine ⟨rfl, hok a (Nat.le_refl _) (Nat.le_add_right _ _), ?_⟩
    rw [hnext a (Nat.le_refl _) (Nat.lt_add_of_pos_right (Nat.succ_pos n))]
    have hend : a + 1 + n = a + (n + 1) := by rw [Nat.add_assoc, Nat.add_comm 1 n]
    apply ih
    · intro c hlo hhi
      exact hok c (Nat.le_of_succ_le hlo) (hend ▸ hhi)
    · intro c hlo hhi
      exact hnext c (Nat.le_of_succ_le hlo) (hend ▸ hhi)
    · rwa [hend]

section

variable (hdisj : ∀ c, ok c → ¬ stop c)
include hdisj

theorem Leads.unique (hl : Leads next ok stop h l) (hl' : Leads next ok stop h l') : l = l' := by
  induction l generalizing h l' with
  | nil =>
    cases l' with
    | nil => rfl
    | cons d ds => exact absurd hl (hdisj h (hl'.1 ▸ hl'.2.1))
  | cons c cs ih =>
    cases l' with
    | nil => exact absurd hl' (hdisj h (hl.1 ▸ hl.2.1))
    | cons d ds =>
      have hcd : c = d := hl.1.trans hl'.1.symm
      subst hcd
      rw [ih hl.2.2 hl'.2.2]

theorem Leads.nodup (hl : Leads next ok stop h l) : l.Nodup := by
  induction l generalizing h with
  | nil => exact nodup_nil
  | cons c cs ih =>
    refine nodup_cons.2 ⟨fun hmem => ?_, ih hl.2.2⟩
    obtain ⟨front, rest, he, hrest⟩ := hl.2.2.exists_suffix hmem
    have hself : Leads next ok stop c (c :: cs) := ⟨rfl, hl.2⟩
    have hlen := congrArg List.length (hself.unique hdisj hrest)
    rw [he] at hlen
    simp only [length_cons, length_append] at hlen
    omega

end

end MicroK.SuccessorChain
