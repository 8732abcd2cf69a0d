import MicroK.Fat32Fragments

/-!
# Looking up a long name

A lookup scans the clusters of a directory one after the other and starts every cluster with an
empty long name. An entry stored with its long name is found by that name exactly when all its
fragments are in the cluster of the short entry, or when the short name is the wanted one as well.
-/

namespace MicroK.Fat32

open Nat

section

variable {entry : ℕ → Buf} {name : List UInt8} {target : Option Buf}

def Passed (entry : ℕ → Buf) (name : List UInt8) (target : Option Buf) (i : ℕ) : Prop :=
  entry i 0 ≠ 0x00 ∧ ¬ (entryIsUsable (entry i) = true ∧
    entryMatches name target (lfnBefore entry i) (entry i) = true)

theorem scanEntries_of_passed {left i : ℕ} (h : Passed entry name target i) :
    scanEntries entry name target (left + 1) i (lfnBefore entry i) =
      scanEntries entry name target left (i + 1) (lfnBefore entry (i + 1)) := by
  obtain ⟨hzero, hnot⟩ := h
  rw [scanEntries_succ, if_neg hzero, ← lfnBefore_succ, if_neg]
  rwa [Bool.and_eq_true]

theorem scanEntries_exhausted {left i : ℕ}
    (h : ∀ j, i ≤ j → j < i + left → Passed entry name target j) :
    scanEntries entry name target left i (lfnBefore entry i) = .exhausted := by
  induction left generalizing i with
  | zero => rfl
  | succ left ih =>
    rw [scanEntries_of_passed (h i le_rfl (by omega))]
    exact ih fun j hj hlt => h j (by omega) (by omega)

theorem scanEntries_hit {left i d : ℕ} (hd : d < left)
    (h : ∀ j, i ≤ j → j < i + d → Passed entry name target j)
    (husable : entryIsUsable (entry (i + d)) = true)
    (hmatch : entryMatches name target (lfnBefore entry (i + d)) (entry (i + d)) = true) :
    scanEntries entry name target left i (lfnBefore entry i) = .found (i + d) := by
  induction d generalizing left i with
  | zero =>
    obtain ⟨left, rfl⟩ := exists_eq_succ_of_ne_zero hd.ne'
    rw [add_zero] at husable hmatch ⊢
    have h0 : entry i 0 ≠ 0x00 := by
      intro h0
      rw [entryIsUsable, if_pos h0] at husable
      cases husable
    rw [scanEntries_succ, if_neg h0, husable, hmatch]
    rfl
  | succ d ih =>
    obtain ⟨left, rfl⟩ := exists_eq_succ_of_ne_zero (show left ≠ 0 by omega)
    have hidx : i + (d + 1) = i + 1 + d := by omega
    rw [scanEntries_of_passed (h i le_rfl (by omega)), hidx]
    rw [hidx] at husable hmatch
    exact ih (by omega) (fun j hj hlt => h j (by omega) (by omega)) husable hmatch

end

section

variable {writable : Bool} {env : Env Buf} {m : Mount} {name : List UInt8} {w : World Buf}

/-- The slot with number `g` of the directory that starts at `c`, through all its clusters. -/
def dirEntry (m : Mount) (disk : Buf) (c g : ℕ) : Buf :=
  slotAt m disk (nthCluster m disk c (g / m.slots)) (g % m.slots)

theorem searchFrom_hit {disk : Buf} {target : Option Buf} {left c k i : ℕ} (hk : k < left)
    (hvalid : ∀ j ≤ k, validCluster (nthCluster m disk c j) = true)
    (hpassed : ∀ j < k, scanEntries (slotAt m disk (nthCluster m disk c j)) name target m.slots 0
      .reset = .exhausted)
    (hfound : scanEntries (slotAt m disk (nthCluster m disk c k)) name target m.slots 0 .reset =
      .found i) :
    searchFrom m disk name target left c =
      some ⟨slotAt m disk (nthCluster m disk c k) i, nthCluster m disk c k, i⟩ := by
  obtain ⟨left, rfl⟩ := exists_eq_succ_of_ne_zero (show left ≠ 0 by omega)
  induction k generalizing left c with
  | zero =>
    have hc : validCluster c = true := hvalid 0 le_rfl
    have hhere : scanEntries (slotAt m disk c) name target m.slots 0 .reset = .found i := hfound
    rw [searchFrom, if_pos hc, hhere]
    rfl
  | succ k ih =>
    have hc : validCluster c = true := hvalid 0 (zero_le _)
    have hhere : scanEntries (slotAt m disk c) name target m.slots 0 .reset = .exhausted :=
      hpassed 0 (succ_pos k)
    obtain ⟨left, rfl⟩ := exists_eq_succ_of_ne_zero (show left ≠ 0 by omega)
    rw [searchFrom, if_pos hc, hhere]
    refine ih (fun j hj => ?_) (fun j hj => ?_) hfound left (by omega)
    · rw [← nthCluster_succ']
      exact hvalid (j + 1) (by omega)
    · rw [← nthCluster_succ']
      exact hpassed (j + 1) (by omega)

theorem dirEntry_eq {c k t : ℕ} (disk : Buf) (ht : t < m.slots) :
    dirEntry m disk c (m.slots * k + t) = slotAt m disk (nthCluster m disk c k) t := by
  rw [dirEntry, mul_add_div (by omega), div_eq_of_lt ht, add_zero,
    mul_add_mod, mod_eq_of_lt ht]

end

section

/-- The directory at `c` holds the name from slot `p` on, followed by its short entry. A lookup
gets that far: no entry in front matches, and the directory does not end there. -/
structure StoredAt (m : Mount) (disk : Buf) (c : ℕ) (n : LongName) (p : ℕ) : Prop where
  valid : ∀ k ≤ (p + n.fragments) / m.slots, validCluster (nthCluster m disk c k) = true
  bound : (p + n.fragments) / m.slots ≤ m.maxClusters
  fragments : ∀ j < n.fragments, n.IsFragment (lfnChecksum (dirEntry m disk c (p + n.fragments)))
    (n.fragments - j) (dirEntry m disk c (p + j))
  usable : entryIsUsable (dirEntry m disk c (p + n.fragments)) = true
  earlier : ∀ g < p, Passed (slotAt m disk (nthCluster m disk c (g / m.slots))) n.utf8
    (make83Name n.utf8) (g % m.slots)

variable {writable : Bool} {env : Env Buf} {m : Mount} {w : World Buf} {c p : ℕ} {n : LongName}
  (h : StoredAt m w.dev c n p)
include h

theorem StoredAt.passed {g : ℕ} (hg : g < p + n.fragments) :
    Passed (slotAt m w.dev (nthCluster m w.dev c (g / m.slots))) n.utf8 (make83Name n.utf8)
      (g % m.slots) := by
  rcases Nat.lt_or_ge g p with hlt | hge
  · exact h.earlier g hlt
  · have hfrag := h.fragments (g - p) (by omega)
    rw [Nat.add_sub_cancel' hge] at hfrag
    refine ⟨hfrag.head_ne_zero (by omega) (by omega), fun hmatch => ?_⟩
    have hlfn : entryIsLfn (dirEntry m w.dev c g) = false := entryIsLfn_of_usable hmatch.1
    rw [hfrag.isLfn] at hlfn
    cases hlfn

theorem StoredAt.found_iff (hslots : 0 < m.slots) (hok : env.kmallocOk w.allocs = true) :
    (findEntryInDir (diskFs writable env m) c n.utf8 w).1 =
        some ⟨dirEntry m w.dev c (p + n.fragments),
          nthCluster m w.dev c ((p + n.fragments) / m.slots), (p + n.fragments) % m.slots⟩ ↔
      entryMatches n.utf8 (make83Name n.utf8)
        (lfnBefore (slotAt m w.dev (nthCluster m w.dev c ((p + n.fragments) / m.slots)))
          ((p + n.fragments) % m.slots)) (dirEntry m w.dev c (p + n.fragments)) = true := by
  have hlt : (p + n.fragments) % m.slots < m.slots := mod_lt _ hslots
  have hdiv := div_add_mod (p + n.fragments) m.slots
  constructor
  · intro hfound
    exact ((findEntryInDir_matched c w).2 _ hfound).hit
  · intro hmatch
    have hslot (k t : ℕ) (ht : t < m.slots) (hg : m.slots * k + t < p + n.fragments) :
        Passed (slotAt m w.dev (nthCluster m w.dev c k)) n.utf8 (make83Name n.utf8) t := by
      have := h.passed hg
      rwa [mul_add_div hslots, div_eq_of_lt ht, add_zero, mul_add_mod,
        mod_eq_of_lt ht] at this
    have hpassed : ∀ k < (p + n.fragments) / m.slots,
        scanEntries (slotAt m w.dev (nthCluster m w.dev c k)) n.utf8 (make83Name n.utf8) m.slots 0
          .reset = .exhausted := by
      intro k hk
      have hmul := mul_le_mul_left m.slots hk
      rw [mul_succ] at hmul
      exact scanEntries_exhausted fun t _ ht => hslot k t (by omega) (by omega)
    have hfound : scanEntries (slotAt m w.dev (nthCluster m w.dev c ((p + n.fragments) / m.slots)))
        n.utf8 (make83Name n.utf8) m.slots 0 .reset = .found ((p + n.fragments) % m.slots) := by
      have hhit := scanEntries_hit (i := 0) hlt
        (fun t _ ht => hslot ((p + n.fragments) / m.slots) t (by omega) (by omega))
        (by rw [zero_add]; exact h.usable) (by rw [zero_add]; exact hmatch)
      rw [zero_add] at hhit
      exact hhit
    rw [findEntryInDir_eq, if_pos hok]
    exact searchFrom_hit (lt_succ_of_le h.bound) h.valid hpassed hfound

theorem StoredAt.matches_of_same_cluster (hslots : 0 < m.slots)
    (hsame : p / m.slots = (p + n.fragments) / m.slots) :
    entryMatches n.utf8 (make83Name n.utf8)
        (lfnBefore (slotAt m w.dev (nthCluster m w.dev c ((p + n.fragments) / m.slots)))
          ((p + n.fragments) % m.slots)) (dirEntry m w.dev c (p + n.fragments)) = true := by
  obtain ⟨h₁, -, -⟩ := n.fragments_bounds
  have hlt := mod_lt (p + n.fragments) hslots
  have hdiv := div_add_mod (p + n.fragments) m.slots
  have hdiv' := div_add_mod p m.slots
  rw [hsame] at hdiv'
  generalize hK : (p + n.fragments) / m.slots = K at hsame hdiv hdiv' ⊢
  have hfrags : ∀ j < n.fragments, n.IsFragment (lfnChecksum (dirEntry m w.dev c (p + n.fragments)))
      (n.fragments - j) (slotAt m w.dev (nthCluster m w.dev c K) (p % m.slots + j)) := by
    intro j hj
    rw [← dirEntry_eq w.dev (by omega), ← add_assoc, hdiv']
    exact h.fragments j hj
  have hall := assembled_lfnBefore hfrags (sub_lt h₁ one_pos)
  have hend : n.fragments - (n.fragments - 1) - 1 = 0 := by omega
  have hidx : p % m.slots + (n.fragments - 1) + 1 = (p + n.fragments) % m.slots := by omega
  rw [hend, hidx] at hall
  exact hall.matches _

theorem StoredAt.lfnBefore_of_later_cluster (hslots : 0 < m.slots)
    (hlater : p / m.slots < (p + n.fragments) / m.slots) {t : ℕ}
    (ht : t ≤ (p + n.fragments) % m.slots) :
    lfnBefore (slotAt m w.dev (nthCluster m w.dev c ((p + n.fragments) / m.slots))) t =
      .reset := by
  have hdiv := Nat.div_add_mod (p + n.fragments) m.slots
  have hmul : m.slots * (p / m.slots + 1) ≤ m.slots * ((p + n.fragments) / m.slots) :=
    Nat.mul_le_mul_left m.slots hlater
  have hp := Nat.lt_mul_div_succ p hslots
  have hlt := Nat.mod_lt (p + n.fragments) hslots
  generalize (p + n.fragments) / m.slots = K at hlater hdiv hmul ⊢
  generalize (p + n.fragments) % m.slots = r at hdiv ht hlt
  generalize p / m.slots = q at hp hmul
  induction t with
  | zero => rfl
  | succ t ih =>
    have hfrag := h.fragments (m.slots * K + t - p) (by omega)
    rw [Nat.add_sub_cancel' (by omega), dirEntry_eq w.dev (by omega)] at hfrag
    rw [lfnBefore, if_pos hfrag.isLfn, ih (by omega)]
    exact hfrag.idle (by omega) (by omega) rfl

/-- A name stored with its fragments is found by its UTF-8 form exactly when the fragments and the
short entry lie in one cluster, or when the short name is the converted name. -/
theorem findEntryInDir_longName_iff (hspc : 0 < m.sectorsPerCluster)
    (hok : env.kmallocOk w.allocs = true) :
    (findEntryInDir (diskFs writable env m) c n.utf8 w).1 =
        some ⟨dirEntry m w.dev c (p + n.fragments),
          nthCluster m w.dev c ((p + n.fragments) / m.slots), (p + n.fragments) % m.slots⟩ ↔
      p / m.slots = (p + n.fragments) / m.slots ∨
        ∃ short, make83Name n.utf8 = some short ∧
          sameName (dirEntry m w.dev c (p + n.fragments)) short = true := by
  have hslots : 0 < m.slots := by
    have := m.clusterSize_eq
    rw [Mount.clusterSize] at this
    omega
  rw [h.found_iff hslots hok]
  rcases (Nat.div_le_div_right (Nat.le_add_right p n.fragments)).eq_or_lt with hsame | hlater
  · exact iff_of_true (h.matches_of_same_cluster hslots hsame) (.inl hsame)
  · rw [h.lfnBefore_of_later_cluster hslots hlater le_rfl]
    unfold entryMatches
    cases hshort : make83Name n.utf8 with
    | none => simp [lfnValidate, LfnState.reset, hlater.ne]
    | some short => simp [lfnValidate, LfnState.reset, hlater.ne]

end

instance (n : LongName) (sum : UInt8) (k : ℕ) (e : Buf) : Decidable (n.IsFragment sum k e) := by
  unfold LongName.IsFragment
  infer_instance

instance (entry : ℕ → Buf) (name : List UInt8) (target : Option Buf) (i : ℕ) :
    Decidable (Passed entry name target i) := by
  unfold Passed
  infer_instance

def thirteenLetters : LongName where
  units := (List.range 13).map (0x61 + ·)
  pos := by decide
  le := by decide
  unit := by decide

def thirteenShort : Buf :=
  newEntry (fun j => [0x41, 0x42, 0x43, 0x44, 0x45, 0x46, 0x7E, 0x31].getD j 0x20) 0x20 5

def thirteenFragment : Buf := fun j =>
  if j = 0 then 0x41 else if j = 11 then 0x0F else if j = 12 ∨ j = 26 ∨ j = 27 then 0
  else if j = 13 then lfnChecksum thirteenShort
  else if j < 11 then (if j % 2 = 1 then UInt8.ofNat (0x61 + (j - 1) / 2) else 0)
  else if j < 26 then (if j % 2 = 0 then UInt8.ofNat (0x66 + (j - 14) / 2) else 0)
  else (if j % 2 = 0 then UInt8.ofNat (0x6C + (j - 28) / 2) else 0)

/-- The small volume with a root directory of two clusters: deleted entries, and the name from slot
`p` on. -/
def thirteenDisk (p : ℕ) : Buf := fun x =>
  let start := smallMount.clusterPos 2
  if x < start then tableSet smallMount (tableSet smallMount (fun _ => 0) 2 3) 3 0x0FFFFFFF x
  else
    let g := (x - start) / 32
    let j := (x - start) % 32
    if g < p then (if j = 0 then 0xE5 else 0)
    else if g = p then thirteenFragment j
    else if g = p + 1 then thirteenShort j
    else 0

def thirteenWorld (p : ℕ) : World Buf := bootWorld (thirteenDisk p)

theorem storedAt_three : StoredAt smallMount (thirteenWorld 3).dev 2 thirteenLetters 3 :=
  ⟨by decide +kernel, by decide +kernel, by decide +kernel, by decide +kernel, by decide +kernel⟩

theorem thirteenLetters_found :
    (findEntryInDir (diskFs true plainEnv smallMount) 2 thirteenLetters.utf8 (thirteenWorld 3)).1 =
      some ⟨dirEntry smallMount (thirteenWorld 3).dev 2 (3 + thirteenLetters.fragments),
        nthCluster smallMount (thirteenWorld 3).dev 2 ((3 + thirteenLetters.fragments) /
          smallMount.slots), (3 + thirteenLetters.fragments) % smallMount.slots⟩ :=
  (findEntryInDir_longName_iff storedAt_three (by decide +kernel) rfl).2
    (.inl (by decide +kernel))

/-- With its fragment in the last slot of the first cluster the name is not found. -/
theorem thirteenLetters_not_found :
    StoredAt smallMount (thirteenWorld 15).dev 2 thirteenLetters 15 ∧
    (findEntryInDir (diskFs true plainEnv smallMount) 2 thirteenLetters.utf8
      (thirteenWorld 15)).1.isNone = true :=
  ⟨⟨by decide +kernel, by decide +kernel, by decide +kernel, by decide +kernel,
    by decide +kernel⟩, by decide +kernel⟩

end MicroK.Fat32
