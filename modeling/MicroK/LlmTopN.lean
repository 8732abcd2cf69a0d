import Mathlib

/-!
# The largest logits

`llm_insert_top_n` keeps the largest logits seen so far in an array. A new entry is put at the end,
in place of the smallest one when the array is full, and moves up past smaller entries. The array is
the beginning of all entries in descending order, where of equal logits the earlier one comes first.
-/

namespace MicroK.Llm

open List

structure LogitEntry (L : Type*) where
  token : ℕ
  logit : L

variable {L : Type*} [LinearOrder L]

/-- The loop that moves entry `i` up. -/
def moveUp (top : List (LogitEntry L)) : ℕ → List (LogitEntry L)
  | 0 => top
  | i + 1 =>
    match top[i]?, top[i + 1]? with
    | some above, some entry =>
      if above.logit < entry.logit then moveUp ((top.set i entry).set (i + 1) above) i else top
    | _, _ => top

/-- The array holds `count` entries, as a list. -/
def llmInsertTopN (maxN : ℕ) (top : List (LogitEntry L)) (x : LogitEntry L) : List (LogitEntry L) :=
  if top.length < maxN then moveUp (top ++ [x]) top.length
  else
    match top[maxN - 1]? with
    | some last =>
      if last.logit < x.logit then moveUp (top.set (maxN - 1) x) (maxN - 1) else top
    | none => top

def topN (maxN : ℕ) (inserted : List (LogitEntry L)) : List (LogitEntry L) :=
  inserted.foldl (llmInsertTopN maxN) []

/-- Whether an entry, with its position among all that were inserted, ranks before another. -/
def Precedes (a b : LogitEntry L × ℕ) : Prop :=
  b.1.logit < a.1.logit ∨ a.1.logit = b.1.logit ∧ a.2 < b.2

variable {front back : List (LogitEntry L)} {x : LogitEntry L}

theorem moveUp_succ (front : List (LogitEntry L)) (a x : LogitEntry L)
    (rest : List (LogitEntry L)) : moveUp (front ++ a :: x :: rest) (front.length + 1) =
      if a.logit < x.logit then moveUp (front ++ x :: a :: rest) front.length
      else front ++ a :: x :: rest := by
  simp [moveUp]

theorem moveUp_append (hfront : ∀ a ∈ front, x.logit ≤ a.logit)
    (hback : ∀ b ∈ back, b.logit < x.logit) (rest : List (LogitEntry L)) :
    moveUp (front ++ (back ++ x :: rest)) (front.length + back.length) =
      front ++ x :: (back ++ rest) := by
  induction back using List.reverseRecOn generalizing rest with
  | nil =>
    cases front using List.reverseRecOn with
    | nil => rfl
    | append_singleton front a =>
      have hstop := moveUp_succ front a x rest
      rw [if_neg (not_lt.mpr (hfront a (by simp)))] at hstop
      simpa using hstop
  | append_singleton back b ih =>
    have hstep := moveUp_succ (front ++ back) b x rest
    rw [if_pos (hback b (by simp))] at hstep
    have hrest := ih (fun c hc => hback c (mem_append_left _ hc)) (b :: rest)
    simp only [append_assoc, length_append, length_singleton, cons_append,
      nil_append, Nat.add_assoc] at hstep hrest ⊢
    rw [hstep, hrest]

/-- Where the entries are split at the place of `x`, the insertion puts it there. -/
theorem llmInsertTopN_take (hfront : ∀ a ∈ front, x.logit ≤ a.logit)
    (hback : ∀ b ∈ back, b.logit < x.logit) {maxN : ℕ} (hpos : 1 ≤ maxN) :
    llmInsertTopN maxN ((front ++ back).take maxN) x = (front ++ x :: back).take maxN := by
  obtain ⟨n, rfl⟩ : ∃ n, maxN = n + 1 := ⟨maxN - 1, by omega⟩
  unfold llmInsertTopN
  by_cases hroom : (front ++ back).length < n + 1
  · have hlength : (front ++ x :: back).length ≤ n + 1 := by
      rw [length_append] at hroom ⊢
      exact hroom
    rw [take_of_length_le (Nat.le_of_lt hroom), if_pos hroom, take_of_length_le hlength,
      append_assoc, length_append, moveUp_append hfront hback, append_nil]
  · have hfull : ((front ++ back).take (n + 1)).length = n + 1 := by
      rw [length_take, Nat.min_eq_left (Nat.not_lt.mp hroom)]
    have hlast : ((front ++ back).take (n + 1))[n + 1 - 1]? = (front ++ back)[n]? := by
      simp
    rw [hfull, if_neg (Nat.lt_irrefl _), hlast]
    by_cases hn : n < front.length
    · have hkeep : ¬ front[n].logit < x.logit := not_lt.mpr (hfront _ (getElem_mem hn))
      rw [getElem?_append_left hn, getElem?_eq_getElem hn]
      simp only [hkeep, if_false]
      rw [take_append_of_le_length hn, take_append_of_le_length hn]
    · have hm : n - front.length < back.length := by
        rw [length_append] at hroom
        omega
      obtain ⟨passed, b, lost, rfl, hpassed⟩ : ∃ passed b lost, back = passed ++ b :: lost ∧
          passed.length = n - front.length :=
        ⟨back.take (n - front.length), back[n - front.length], back.drop (n - front.length + 1),
          by simp, length_take_of_le (Nat.le_of_lt hm)⟩
      obtain rfl : n = front.length + passed.length := by omega
      have hb : b.logit < x.logit := hback b (by simp)
      have hmove := moveUp_append hfront
        (fun c hc => hback c (mem_append_left (b :: lost) hc)) []
      have htake : (front ++ (passed ++ b :: lost)).take (front.length + passed.length + 1) =
          front ++ (passed ++ [b]) := by
        rw [Nat.add_assoc, take_length_add_append, take_length_add_append]
        rfl
      have hresult : (front ++ x :: (passed ++ b :: lost)).take (front.length + passed.length + 1) =
          front ++ x :: passed := by
        rw [Nat.add_assoc, take_length_add_append, take_succ_cons, take_left]
      have hget : (front ++ (passed ++ b :: lost))[front.length + passed.length]? = some b := by
        simp
      have hset : (front ++ (passed ++ [b])).set (front.length + passed.length) x =
          front ++ (passed ++ [x]) := by
        simp
      simp only [hget, hb, if_true, Nat.add_sub_cancel]
      rw [htake, hset, hmove, hresult, append_nil]

theorem exists_split {ranked : List (LogitEntry L × ℕ)} (h : ranked.Pairwise Precedes)
    (x : LogitEntry L) : ∃ front back, ranked = front ++ back ∧
      (∀ a ∈ front, x.logit ≤ a.1.logit) ∧ ∀ b ∈ back, b.1.logit < x.logit := by
  induction ranked with
  | nil => exact ⟨[], [], rfl, nofun, nofun⟩
  | cons a ranked ih =>
    obtain ⟨ha, hrest⟩ := pairwise_cons.mp h
    by_cases hx : x.logit ≤ a.1.logit
    · obtain ⟨front, back, rfl, hfront, hback⟩ := ih hrest
      exact ⟨a :: front, back, rfl, forall_mem_cons.mpr ⟨hx, hfront⟩, hback⟩
    · refine ⟨[], a :: ranked, rfl, nofun, forall_mem_cons.mpr ⟨not_le.mp hx, ?_⟩⟩
      intro b hb
      rcases ha b hb with hlt | ⟨heq, -⟩
      · exact hlt.trans (not_le.mp hx)
      · exact heq ▸ not_le.mp hx

/-- After any insertions the array is the beginning of the ranking of all that was inserted. -/
theorem topN_eq_take_ranked (maxN : ℕ) (hpos : 1 ≤ maxN) (inserted : List (LogitEntry L)) :
    ∃ ranked : List (LogitEntry L × ℕ), ranked.Perm inserted.zipIdx ∧ ranked.Pairwise Precedes ∧
      topN maxN inserted = (ranked.map Prod.fst).take maxN ∧
      (topN maxN inserted).length = min maxN inserted.length := by
  induction inserted using List.reverseRecOn with
  | nil => exact ⟨[], .nil, .nil, by simp [topN], by simp [topN]⟩
  | append_singleton inserted x ih =>
    obtain ⟨ranked, hperm, hranked, htop, -⟩ := ih
    obtain ⟨front, back, rfl, hfront, hback⟩ := exists_split hranked x
    have hnew : (front ++ (x, inserted.length) :: back).Perm (inserted ++ [x]).zipIdx := by
      rw [zipIdx_append, Nat.zero_add]
      exact perm_middle.trans ((hperm.cons _).trans (perm_append_singleton _ _).symm)
    have hindex : ∀ a ∈ front ++ back, a.2 < inserted.length := by
      intro a ha
      simpa using (mem_zipIdx (hperm.mem_iff.mp ha)).2.1
    have hstep : topN maxN (inserted ++ [x]) =
        ((front ++ (x, inserted.length) :: back).map Prod.fst).take maxN := by
      rw [topN, foldl_append, ← topN, htop, map_append, map_append, map_cons]
      refine llmInsertTopN_take ?_ ?_ hpos
      · exact forall_mem_map.mpr hfront
      · exact forall_mem_map.mpr hback
    refine ⟨_, hnew, ?_, hstep, ?_⟩
    · rw [pairwise_append] at hranked ⊢
      obtain ⟨hf, hb, hfb⟩ := hranked
      refine ⟨hf, pairwise_cons.mpr ⟨fun b hmem => .inl (hback b hmem), hb⟩, ?_⟩
      intro a ha
      refine forall_mem_cons.mpr ⟨?_, hfb a ha⟩
      rcases (hfront a ha).lt_or_eq with hlt | heq
      · exact .inl hlt
      · exact .inr ⟨heq.symm, hindex a (mem_append_left _ ha)⟩
    · rw [hstep, length_take, length_map, hnew.length_eq, length_zipIdx]

theorem topN_eq_take_ranked_one : ∃ ranked : List (LogitEntry ℕ × ℕ),
    ranked.Perm [(⟨7, 3⟩, 0), (⟨8, 3⟩, 1)] ∧ ranked.Pairwise Precedes ∧
      topN 1 [⟨7, 3⟩, ⟨8, 3⟩] = (ranked.map Prod.fst).take 1 ∧
      (topN (L := ℕ) 1 [⟨7, 3⟩, ⟨8, 3⟩]).length = 1 :=
  topN_eq_take_ranked 1 le_rfl [⟨7, 3⟩, ⟨8, 3⟩]

end MicroK.Llm
