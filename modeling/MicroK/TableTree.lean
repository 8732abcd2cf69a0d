import Mathlib.Logic.Function.Basic
import Mathlib.Data.List.Induction
import Mathlib.Order.Nat

/-!
# Trees of tables in memory

A memory maps frames to tables of entries, and `next` says to which frame an entry leads, if to any.
`walk` follows a path of indices from the root. In a `Tree` of depth `n` no frame is reached by two
paths. Then writing an entry of a table at full depth changes no walk, and hanging a blank table
that is not in use into an absent place adds exactly one path. Both are stated for the entries that
the paths of full depth lead to.
-/

namespace MicroK.TableTree

open Function (update update_of_ne update_self)

open List Option

variable {φ ε : Type*} (next : ε → Option φ)

def walk (mem : φ → ℕ → ε) : φ → List ℕ → Option φ
  | f, [] => some f
  | f, i :: is => (next (mem f i)).bind fun g => walk mem g is

def setEntry [DecidableEq φ] (mem : φ → ℕ → ε) (f : φ) (i : ℕ) (e : ε) : φ → ℕ → ε :=
  update mem f (update (mem f) i e)

def entryAt (mem : φ → ℕ → ε) (root : φ) (absent : ε) (p : List ℕ) (i : ℕ) : ε :=
  (walk next mem root p).elim absent fun f => mem f i

/-- Paths of length at most `n` lead to different frames, all of them in use. -/
structure Tree (mem : φ → ℕ → ε) (root : φ) (n : ℕ) (used : φ → Prop) : Prop where
  unique : ∀ {p q f}, p.length ≤ n → q.length ≤ n → walk next mem root p = some f →
    walk next mem root q = some f → p = q
  used : ∀ {p f}, p.length ≤ n → walk next mem root p = some f → used f

variable {next} {mem : φ → ℕ → ε} {root f g : φ} {n : ℕ} {used : φ → Prop} {p q : List ℕ} {i j : ℕ}

theorem walk_append (p q : List ℕ) :
    walk next mem root (p ++ q) = (walk next mem root p).bind fun f => walk next mem f q := by
  induction p generalizing root with
  | nil => rfl
  | cons i is ih =>
    rw [cons_append, walk, walk, bind_assoc]
    exact congrArg _ (funext fun g => ih)

theorem walk_snoc (p : List ℕ) (i : ℕ) :
    walk next mem root (p ++ [i]) = (walk next mem root p).bind fun f => next (mem f i) := by
  rw [walk_append]
  refine congrArg _ (funext fun f => ?_)
  rw [walk]
  cases next (mem f i) <;> rfl

theorem tree_of_blank (hblank : ∀ i, next (mem root i) = none) (hused : used root) :
    Tree next mem root n used := by
  have hnil : ∀ {p f}, walk next mem root p = some f → p = [] ∧ f = root := by
    intro p f hp
    cases p with
    | nil => exact ⟨rfl, (Option.some.inj hp).symm⟩
    | cons i is =>
      rw [walk, hblank] at hp
      cases hp
  constructor
  · intro p q f _ _ hp hq
    rw [(hnil hp).1, (hnil hq).1]
  · intro p f _ hp
    rw [(hnil hp).2]
    exact hused

theorem Tree.mono {used' : φ → Prop} (h : Tree next mem root n used)
    (himp : ∀ f, used f → used' f) : Tree next mem root n used' :=
  ⟨h.unique, fun hp hw => himp _ (h.used hp hw)⟩

variable [DecidableEq φ]

@[simp] theorem setEntry_self (e : ε) : setEntry mem f i e f i = e := by
  simp [setEntry]

theorem setEntry_of_ne_frame (h : g ≠ f) (e : ε) : setEntry mem f i e g j = mem g j := by
  simp [setEntry, update_of_ne h]

theorem setEntry_of_ne_index (h : j ≠ i) (e : ε) : setEntry mem f i e f j = mem f j := by
  simp [setEntry, update_of_ne h]

section

variable (h : Tree next mem root n used) (hp : p.length = n) (hw : walk next mem root p = some f)
include h hp hw

theorem walk_setEntry_leaf (e : ε) (hq : q.length ≤ n) :
    walk next (setEntry mem f i e) root q = walk next mem root q := by
  induction q using List.reverseRecOn with
  | nil => rfl
  | append_singleton q j ih =>
    rw [length_append, length_singleton] at hq
    rw [walk_snoc, walk_snoc, ih (by omega)]
    cases hq' : walk next mem root q with
    | none => rfl
    | some g =>
      have hne : g ≠ f := by
        rintro rfl
        have hqp : q = p := h.unique (by omega) hp.le hq' hw
        rw [hqp] at hq
        omega
      simp only [bind_some, setEntry_of_ne_frame hne]

theorem tree_setEntry_leaf (e : ε) : Tree next (setEntry mem f i e) root n used := by
  constructor
  · intro q r g hq hr hwq hwr
    rw [walk_setEntry_leaf h hp hw e hq] at hwq
    rw [walk_setEntry_leaf h hp hw e hr] at hwr
    exact h.unique hq hr hwq hwr
  · intro q g hq hwq
    rw [walk_setEntry_leaf h hp hw e hq] at hwq
    exact h.used hq hwq

theorem entryAt_setEntry_leaf (absent e : ε) (hq : q.length = n) :
    entryAt next (setEntry mem f i e) root absent q j =
      if q = p ∧ j = i then e else entryAt next mem root absent q j := by
  unfold entryAt
  rw [walk_setEntry_leaf h hp hw e hq.le]
  cases hq' : walk next mem root q with
  | none =>
    have hne : ¬ (q = p ∧ j = i) := by
      rintro ⟨rfl, _⟩
      rw [hw] at hq'
      cases hq'
    rw [if_neg hne]
    rfl
  | some g =>
    by_cases hqp : q = p
    · subst hqp
      obtain rfl : g = f := Option.some.inj (hq'.symm.trans hw)
      by_cases hji : j = i
      · subst hji
        rw [if_pos ⟨rfl, rfl⟩]
        exact setEntry_self e
      · rw [if_neg fun hc => hji hc.2]
        exact setEntry_of_ne_index hji e
    · have hne : g ≠ f := fun hgf => hqp (h.unique hq.le hp.le hq' (hgf ▸ hw))
      rw [if_neg fun hc => hqp hc.1]
      exact setEntry_of_ne_frame hne e

end

section

variable (hout : ∀ {q : List ℕ}, q.length ≤ n → walk next mem root q ≠ some f)
include hout

end

section

variable (h : Tree next mem root n used) (hp : p.length < n) (hw : walk next mem root p = some f)
  (habsent : next (mem f i) = none) (hfresh : ¬ used g) {blank : ℕ → ε}
  (hblank : ∀ j, next (blank j) = none) {e : ε} (he : next e = some g)
include h hp hw habsent hfresh hblank he

theorem walk_link (hq : q.length ≤ n) :
    walk next (setEntry (update mem g blank) f i e) root q =
      if q = p ++ [i] then some g else walk next mem root q := by
  have hgf : g ≠ f := fun hgf => hfresh (hgf ▸ h.used hp.le hw)
  induction q using List.reverseRecOn with
  | nil => rw [if_neg (by simp)]; rfl
  | append_singleton q j ih =>
    rw [length_append, length_singleton] at hq
    rw [walk_snoc, walk_snoc, ih (by omega)]
    by_cases hqi : q = p ++ [i]
    · have hlen : ¬ q ++ [j] = p ++ [i] := by
        intro heq
        have := congrArg List.length (hqi ▸ heq)
        simp at this
      rw [if_pos hqi, if_neg hlen, hqi, walk_snoc, hw]
      simp only [bind_some, habsent, bind_none, setEntry_of_ne_frame hgf,
        update_self, hblank]
    · rw [if_neg hqi]
      cases hq' : walk next mem root q with
      | none =>
        have hne : ¬ q ++ [j] = p ++ [i] := by
          intro heq
          have hqp : q = p := (append_inj' heq rfl).1
          rw [hqp, hw] at hq'
          cases hq'
        rw [if_neg hne]
        rfl
      | some k =>
        have hkg : k ≠ g := fun hkg => hfresh (hkg ▸ h.used (by omega) hq')
        by_cases hkf : k = f
        · subst hkf
          have hqp : q = p := h.unique (by omega) hp.le hq' hw
          subst hqp
          by_cases hji : j = i
          · subst hji
            rw [if_pos rfl, bind_some, setEntry_self, he]
          · have hne : ¬ q ++ [j] = q ++ [i] := by simpa using hji
            rw [if_neg hne, bind_some, bind_some, setEntry_of_ne_index hji,
              update_of_ne hkg]
        · have hne : ¬ q ++ [j] = p ++ [i] := by
            intro heq
            have hqp : q = p := (append_inj' heq rfl).1
            rw [hqp, hw] at hq'
            exact hkf (Option.some.inj hq').symm
          rw [if_neg hne, bind_some, bind_some, setEntry_of_ne_frame hkf,
            update_of_ne hkg]

theorem tree_link : Tree next (setEntry (update mem g blank) f i e) root n
    (fun k => used k ∨ k = g) := by
  have hlink : ∀ {q : List ℕ}, q.length ≤ n →
      walk next (setEntry (update mem g blank) f i e) root q = _ :=
    fun hq => walk_link h hp hw habsent hfresh hblank he hq
  constructor
  · intro q r k hq hr hwq hwr
    rw [hlink hq] at hwq
    rw [hlink hr] at hwr
    split_ifs at hwq hwr with hqi hri hri
    · rw [hqi, hri]
    · exact absurd (h.used hr (hwr.trans hwq.symm)) hfresh
    · exact absurd (h.used hq (hwq.trans hwr.symm)) hfresh
    · exact h.unique hq hr hwq hwr
  · intro q k hq hwq
    rw [hlink hq] at hwq
    split_ifs at hwq
    · exact .inr (Option.some.inj hwq).symm
    · exact .inl (h.used hq hwq)

/-- The new table looks like the absence of one. -/
theorem entryAt_link (absent : ε) (habs : ∀ j, blank j = absent) (hq : q.length = n) :
    entryAt next (setEntry (update mem g blank) f i e) root absent q j =
      entryAt next mem root absent q j := by
  unfold entryAt
  rw [walk_link h hp hw habsent hfresh hblank he hq.le]
  split_ifs with hqi
  · have hgf : g ≠ f := fun hgf => hfresh (hgf ▸ h.used hp.le hw)
    rw [hqi, walk_snoc, hw, bind_some, habsent]
    simp only [elim_some, elim_none, setEntry_of_ne_frame hgf, update_self,
      habs]
  · cases hq' : walk next mem root q with
    | none => rfl
    | some k =>
      have hkg : k ≠ g := fun hkg => hfresh (hkg ▸ h.used hq.le hq')
      have hkf : k ≠ f := by
        rintro rfl
        have hqp : q = p := h.unique hq.le hp.le hq' hw
        rw [hqp] at hq
        omega
      simp only [elim_some, setEntry_of_ne_frame hkf, update_of_ne hkg]

end

end MicroK.TableTree
