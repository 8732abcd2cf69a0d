import Mathlib.Data.Nat.ModEq
import MicroK.Fat32View

/-!
# Lookups in a consistent volume

The walks of the driver over a directory, as functions of the list of its clusters, and the
resolution of a path. On a disk and along a proper chain the driver computes exactly these.
-/

namespace MicroK.Fat32

open List Io Nat Function Bool

def linkOf (m : Mount) (disk : Buf) (c : ℕ) : ℕ := le32 disk (m.entryPos c) &&& 0x0FFFFFFF

def nthCluster (m : Mount) (disk : Buf) (first k : ℕ) : ℕ := (linkOf m disk)^[k] first

def fileByte (m : Mount) (disk : Buf) (first j : ℕ) : UInt8 :=
  disk (u32 (m.clusterOffset (nthCluster m disk first (j / m.clusterSize)) + j % m.clusterSize))

def filled (m : Mount) (disk : Buf) (first : ℕ) (buffer : Buf) (t : ℕ) : Buf :=
  fun j => if j < t then fileByte m disk first j else buffer j

/-- A transfer of `size` bytes along the walk ends after `t` bytes, because all of them are there
or because the next cluster is not valid. -/
def EndsAfter (m : Mount) (disk : Buf) (first size t : ℕ) : Prop :=
  ∃ k, t = min (k * m.clusterSize) size ∧
    (∀ j < k, validCluster (nthCluster m disk first j) = true) ∧
    (size ≤ k * m.clusterSize ∨ validCluster (nthCluster m disk first k) = false)

variable {m : Mount} {disk : Buf} {first : ℕ}

theorem nthCluster_add (i q : ℕ) :
    nthCluster m disk first (i + q) = nthCluster m disk (nthCluster m disk first i) q := by
  rw [nthCluster, nthCluster, nthCluster, add_comm, iterate_add_apply]

theorem nthCluster_succ (i : ℕ) :
    nthCluster m disk first (i + 1) = linkOf m disk (nthCluster m disk first i) :=
  iterate_succ_apply' _ _ _

theorem nthCluster_succ' (k : ℕ) :
    nthCluster m disk first (k + 1) = nthCluster m disk (linkOf m disk first) k :=
  iterate_succ_apply _ _ _

theorem nthCluster_eq_of_link_self (hself : linkOf m disk first = first) (k : ℕ) :
    nthCluster m disk first k = first := Function.iterate_fixed hself k

theorem clusterOffset_modEq (m : Mount) (c : ℕ) : m.clusterOffset c ≡
    (m.dataStartLba + (c + (2 ^ 32 - 2)) * m.sectorsPerCluster) * 512 [MOD 2 ^ 32] := by
  have hsub : sub32 c 2 * m.sectorsPerCluster ≡
      (c + (2 ^ 32 - 2)) * m.sectorsPerCluster [MOD 2 ^ 32] :=
    (mod_modEq _ _).mul_right _
  have hlba : m.clusterToLba c ≡
      m.dataStartLba + (c + (2 ^ 32 - 2)) * m.sectorsPerCluster [MOD 2 ^ 32] :=
    (mod_modEq _ _).trans (((mod_modEq _ _).trans hsub).add_left _)
  exact (mod_modEq _ _).trans (hlba.mul_right _)

theorem u32_clusterOffset_add (m : Mount) (c q r : ℕ) :
    u32 (m.clusterOffset (c + q) + r) = u32 (m.clusterOffset c + (q * m.clusterSize + r)) := by
  have hsum : (m.dataStartLba + (c + q + (2 ^ 32 - 2)) * m.sectorsPerCluster) * 512 + r =
      (m.dataStartLba + (c + (2 ^ 32 - 2)) * m.sectorsPerCluster) * 512 +
        (q * m.clusterSize + r) := by
    rw [Mount.clusterSize]
    ring
  have hq := (clusterOffset_modEq m (c + q)).add_right r
  have hc := (clusterOffset_modEq m c).add_right (q * m.clusterSize + r)
  rw [hsum] at hq
  exact hq.trans hc.symm

theorem filled_zero (buffer : Buf) : filled m disk first buffer 0 = buffer := by
  funext j
  exact if_neg (not_lt_zero j)

theorem filled_copyAt (buffer : Buf) {t n : ℕ} {src : Buf}
    (hsrc : ∀ i < n, src i = fileByte m disk first (t + i)) :
    (filled m disk first buffer t).copyAt t n src = filled m disk first buffer (t + n) := by
  funext j
  unfold filled
  by_cases hj : t ≤ j ∧ j < t + n
  · rw [Buf.copyAt_of_mem hj.1 hj.2, if_pos hj.2, hsrc _ (by omega)]
    exact congrArg _ (by omega)
  · rw [Buf.copyAt_of_not_mem (by omega)]
    by_cases ht : j < t
    · rw [if_pos ht, if_pos (by omega)]
    · rw [if_neg ht, if_neg (by omega)]

theorem fileByte_of_run {i n r : ℕ}
    (hrun : ∀ q < n, nthCluster m disk first (i + q) = nthCluster m disk first i + q)
    (hr : r < n * m.clusterSize) :
    fileByte m disk first (i * m.clusterSize + r) =
      disk (u32 (m.clusterOffset (nthCluster m disk first i) + r)) := by
  have hpos : 0 < m.clusterSize := pos_of_ne_zero (fun h => by rw [h] at hr; omega)
  have hq : r / m.clusterSize < n := Nat.div_lt_of_lt_mul (by rwa [Nat.mul_comm])
  have hdiv : (i * m.clusterSize + r) / m.clusterSize = i + r / m.clusterSize := by
    rw [mul_comm, mul_add_div hpos]
  rw [fileByte, hdiv, mul_add_mod_self_right, hrun _ hq, u32_clusterOffset_add,
    div_add_mod']

theorem EndsAfter.le_size {size t : ℕ} (h : EndsAfter m disk first size t) : t ≤ size := by
  obtain ⟨k, rfl, -, -⟩ := h
  exact min_le_right _ _

theorem EndsAfter.unique {size t t' : ℕ} (h : EndsAfter m disk first size t)
    (h' : EndsAfter m disk first size t') : t = t' := by
  obtain ⟨k, rfl, hvalid, hend⟩ := h
  obtain ⟨k', rfl, hvalid', hend'⟩ := h'
  have hfull : ∀ {a b : ℕ}, a < b → (∀ j < b, validCluster (nthCluster m disk first j) = true) →
      (size ≤ a * m.clusterSize ∨ validCluster (nthCluster m disk first a) = false) →
      min (a * m.clusterSize) size = min (b * m.clusterSize) size := by
    intro a b hab hb ha
    have hle : a * m.clusterSize ≤ b * m.clusterSize := mul_le_mul_right _ hab.le
    rcases ha with hsize | hinvalid
    · omega
    · rw [hb a hab] at hinvalid
      cases hinvalid
  rcases lt_trichotomy k k' with hlt | rfl | hlt
  · exact hfull hlt hvalid' hend
  · rfl
  · exact (hfull hlt hvalid hend').symm

section

variable {writable : Bool} {env : Env Buf} {w : World Buf}

theorem getNextCluster_eq_linkOf (c : ℕ) :
    getNextCluster (diskFs writable env m) c w = (linkOf m w.dev c, w) := getNextCluster_at c

theorem vfsReadDevice_wrapping (offset size : ℕ) (buffer : Buf) :
    vfsReadDevice (diskDevice writable) offset size buffer w =
      (some (buffer.copyAt 0 size (fun j => w.dev (u32 (offset + j)))), w) := by
  simp only [vfsReadDevice, diskDevice, OfNat.ofNat_ne_zero, ↓reduceIte]

theorem readLoop_step {size fuel k : ℕ} (buffer temp : Buf) (hlt : k * m.clusterSize < size)
    (hvalid : validCluster (nthCluster m w.dev first k) = true) :
    ∃ temp', readLoop (diskFs writable env m) size (fuel + 1) (nthCluster m w.dev first k) 0
        (min (k * m.clusterSize) size) temp
        (filled m w.dev first buffer (min (k * m.clusterSize) size)) w =
      readLoop (diskFs writable env m) size fuel (nthCluster m w.dev first (k + 1)) 0
        (min ((k + 1) * m.clusterSize) size) temp'
        (filled m w.dev first buffer (min ((k + 1) * m.clusterSize) size)) w := by
  refine ⟨temp.copyAt 0 m.clusterSize fun j =>
    w.dev (u32 (m.clusterOffset (nthCluster m w.dev first k) + j)), ?_⟩
  have hmin : min (k * m.clusterSize) size = k * m.clusterSize := min_eq_left hlt.le
  have hsum : k * m.clusterSize + min (m.clusterSize - 0) (size - k * m.clusterSize) =
      min ((k + 1) * m.clusterSize) size := by
    rw [succ_mul]
    omega
  have hsrc : ∀ i < min (m.clusterSize - 0) (size - k * m.clusterSize),
      Buf.from (temp.copyAt 0 m.clusterSize fun j =>
        w.dev (u32 (m.clusterOffset (nthCluster m w.dev first k) + j))) 0 i =
          fileByte m w.dev first (k * m.clusterSize + i) := by
    intro i hi
    rw [Buf.from, Buf.copyAt_of_mem (Nat.zero_le _) (by omega), Nat.zero_add, Nat.sub_zero]
    refine (fileByte_of_run (n := 1) (fun q hq => ?_) (by omega)).symm
    rw [lt_one_iff.1 hq, add_zero, add_zero]
  rw [hmin, readLoop, if_pos ⟨hlt, hvalid⟩]
  simp only [bind_apply, diskFs_dev, diskFs_mount, vfsReadDevice_wrapping,
    getNextCluster_eq_linkOf, filled_copyAt buffer hsrc, hsum, nthCluster_succ]

theorem readLoop_walk {size fuel k : ℕ} (buffer temp : Buf) (hpos : 0 < m.clusterSize)
    (hvalid : ∀ j < k, validCluster (nthCluster m w.dev first j) = true)
    (hfuel : size ≤ k * m.clusterSize + fuel) :
    ∃ t, EndsAfter m w.dev first size t ∧
      readLoop (diskFs writable env m) size fuel (nthCluster m w.dev first k) 0
        (min (k * m.clusterSize) size) temp
        (filled m w.dev first buffer (min (k * m.clusterSize) size)) w =
      ((t, filled m w.dev first buffer t), w) := by
  induction fuel generalizing k temp with
  | zero => exact ⟨_, ⟨k, rfl, hvalid, .inl hfuel⟩, rfl⟩
  | succ fuel ih =>
    by_cases hgo : k * m.clusterSize < size ∧ validCluster (nthCluster m w.dev first k) = true
    · obtain ⟨temp', hstep⟩ := @readLoop_step m first writable env w size fuel k buffer temp
        hgo.1 hgo.2
      rw [hstep]
      refine ih temp' (fun j hj => ?_) ?_
      · rcases Nat.lt_succ_iff_lt_or_eq.1 hj with hj | rfl
        · exact hvalid j hj
        · exact hgo.2
      · rw [succ_mul]
        omega
    · refine ⟨_, ⟨k, rfl, hvalid, ?_⟩, ?_⟩
      · rcases not_and_or.1 hgo with hsize | hinvalid
        · exact .inl (not_lt.1 hsize)
        · exact .inr (eq_false_of_not_eq_true hinvalid)
      · rw [readLoop, if_neg (fun h => hgo ⟨by omega, h.2⟩), pure_apply]

theorem read_walk {size : ℕ} (buffer : Buf) (hpos : 0 < m.clusterSize)
    (hok : ∀ n, env.kmallocOk n = true) :
    ∃ t, EndsAfter m w.dev first size t ∧
      (read (diskFs writable env m) first 0 size buffer w).1 =
        (t, filled m w.dev first buffer t) := by
  by_cases hvalid : validCluster first = true
  · obtain ⟨t, hend, hrun⟩ := @readLoop_walk m first writable env (w.bump 1) size size 0 buffer
      (env.heapBytes w.allocs) hpos (fun j hj => absurd hj (not_lt_zero j)) (by omega)
    refine ⟨t, hend, ?_⟩
    rw [zero_mul, zero_min, filled_zero] at hrun
    simp only [read, if_pos hvalid, diskFs_mount, diskFs_env, Nat.zero_div, Nat.zero_mod,
      skipClusters, bind_apply, pure_apply, kmallocBuf_of_ok (hok _)]
    exact congrArg Prod.fst hrun
  · have hfalse := eq_false_of_not_eq_true hvalid
    refine ⟨0, ⟨0, by simp, fun j hj => absurd hj (not_lt_zero j), .inr hfalse⟩, ?_⟩
    rw [read, if_neg hvalid, filled_zero, pure_apply]

end

open SuccessorChain

def findInClusters (m : Mount) (v : View) (name : List UInt8) (target : Option Buf) :
    List ℕ → Option Found
  | [] => none
  | c :: cs =>
    match scanEntries (v.slot c) name target m.slots 0 .reset with
    | .endOfDir => none
    | .found i => some ⟨v.slot c i, c, i⟩
    | .exhausted => findInClusters m v name target cs

def slotAt (m : Mount) (disk : Buf) (c : ℕ) : ℕ → Buf :=
  entryOf fun j => disk (u32 (m.clusterOffset c + j))

/-- What a lookup finds in the clusters from `c` on, whatever the table holds. -/
def searchFrom (m : Mount) (disk : Buf) (name : List UInt8) (target : Option Buf) :
    ℕ → ℕ → Option Found
  | 0, _ => none
  | left + 1, c =>
    if validCluster c then
      match scanEntries (slotAt m disk c) name target m.slots 0 .reset with
      | .endOfDir => none
      | .found i => some ⟨slotAt m disk c i, c, i⟩
      | .exhausted => searchFrom m disk name target left (linkOf m disk c)
    else none

def freeSlotInClusters (m : Mount) (v : View) : List ℕ → Option ℕ
  | [] => none
  | c :: cs =>
    match freeSlotIn (v.slot c) m.slots with
    | some i => some i
    | none => freeSlotInClusters m v cs

/-- The first free slot in the clusters from `c` on. -/
def freeSlotFrom (m : Mount) (disk : Buf) : ℕ → ℕ → Option ℕ
  | 0, _ => none
  | left + 1, c =>
    if validCluster c then
      match freeSlotIn (slotAt m disk c) m.slots with
      | some i => some i
      | none => freeSlotFrom m disk left (linkOf m disk c)
    else none

variable {m : Mount} {name : List UInt8} {target : Option Buf}
variable {e : Buf} {st : LfnState} {entry : ℕ → Buf} {left i k c : ℕ} {v : View} {l : List ℕ}

theorem entry_congr {e' : Buf} (h : ∀ j < 28, e' j = e j) :
    entryIsLfn e' = entryIsLfn e ∧ entryIsUsable e' = entryIsUsable e ∧
      entryIsDir e' = entryIsDir e ∧ entryIsFile e' = entryIsFile e ∧
      entryCluster e' = entryCluster e := by
  have hattr : entryAttr e' = entryAttr e := congrArg UInt8.toNat (h 11 (by norm_num))
  have hlfn : entryIsLfn e' = entryIsLfn e := by rw [entryIsLfn, hattr, entryIsLfn]
  have husable : entryIsUsable e' = entryIsUsable e := by
    unfold entryIsUsable
    rw [hlfn, hattr, h 0 (by norm_num)]
  refine ⟨hlfn, husable, ?_, ?_, ?_⟩
  · rw [entryIsDir, husable, hattr, entryIsDir]
  · rw [entryIsFile, husable, hattr, entryIsFile]
  · unfold entryCluster
    rw [le16_congr (fun j hj => h _ (by omega)), le16_congr (fun j hj => h _ (by omega))]

theorem entryMatches_congr {e' : Buf} (h : ∀ j < 28, e' j = e j) :
    entryMatches name target st e' = entryMatches name target st e := by
  have hsum : lfnChecksum e' = lfnChecksum e := by
    refine foldl_ext _ _ _ (fun sum j hj => ?_)
    have hj' : j < 11 := mem_range.1 hj
    rw [h j (by omega)]
  have hname : ∀ short, sameName e' short = sameName e short := by
    intro short
    rw [sameName, sameName, Bool.eq_iff_iff, all_eq_true, all_eq_true]
    refine forall₂_congr (fun j hj => ?_)
    have hj' : j < 11 := mem_range.1 hj
    rw [h j (by omega)]
  cases target with
  | none => simp only [entryMatches, lfnValidate, hsum]
  | some short => simp only [entryMatches, lfnValidate, hsum, hname]

def SameButSize (e e' : Buf) : Prop := e' = e ∨ (entryIsLfn e = false ∧ ∀ j < 28, e' j = e j)

theorem scanEntries_congr {entry' : ℕ → Buf}
    (h : ∀ j, i ≤ j → j < i + left → SameButSize (entry' j) (entry j)) :
    scanEntries entry name target left i st = scanEntries entry' name target left i st := by
  induction left generalizing i st with
  | zero => rfl
  | succ left ih =>
    have hrest : ∀ st, scanEntries entry name target left (i + 1) st =
        scanEntries entry' name target left (i + 1) st :=
      fun st => ih (fun j hj hj' => h j (by omega) (by omega))
    rcases h i le_rfl (by omega) with hi | ⟨hlfn, hhead⟩
    · simp only [scanEntries, hi, hrest]
    · obtain ⟨hlfn', husable, -⟩ := entry_congr hhead
      simp only [scanEntries, hhead 0 (by norm_num), hlfn', hlfn, husable,
        entryMatches_congr hhead, hrest, false_eq_true, if_false]

theorem freeSlotIn_congr {entry' : ℕ → Buf} {slots : ℕ} (h : ∀ j < slots, entry j = entry' j) :
    freeSlotIn entry slots = freeSlotIn entry' slots := by
  refine find?_congr (fun j hj => ?_)
  rw [h j (mem_range.1 hj)]

/-- A scan goes on with the next entry unless the directory ends or the entry is the wanted one. -/
theorem scanEntries_succ : scanEntries entry name target (left + 1) i st =
    if entry i 0 = 0x00 then .endOfDir
    else if entryIsUsable (entry i) && entryMatches name target st (entry i) then .found i
    else scanEntries entry name target left (i + 1)
      (if entryIsLfn (entry i) then lfnFeed st (entry i) else .reset) := by
  have hlfn : entryIsLfn (entry i) = true → entryIsUsable (entry i) = false := by
    simp +contextual [entryIsUsable]
  have hdeleted : entry i 0 = 0xE5 → entryIsUsable (entry i) = false := by
    simp +contextual [entryIsUsable]
  rw [scanEntries]
  grind

/-- What a scan finds is an entry in use that carries the name, and all entries in front of it
are in use. -/
theorem scanEntries_found (h : scanEntries entry name target left i st = .found k) :
    i ≤ k ∧ k < i + left ∧ entryIsUsable (entry k) = true := by
  induction left generalizing i st with
  | zero => cases h
  | succ left ih =>
    rw [scanEntries_succ] at h
    split_ifs at h with h0 hhit
    · cases h
      exact ⟨le_rfl, by omega, (and_eq_true_iff.1 hhit).1⟩
    all_goals
      obtain ⟨hle, hlt, husable⟩ := ih h
      exact ⟨by omega, by omega, husable⟩

theorem upper_ne_dot {c : UInt8} (hc : c ≠ 0x2E) : upper c ≠ 0x2E := by
  unfold upper
  split_ifs with h
  · intro he
    have h1 := UInt8.le_iff_toNat_le.1 h.1
    have h2 := UInt8.le_iff_toNat_le.1 h.2
    have h3 := congrArg UInt8.toNat he
    rw [UInt8.toNat_sub] at h3
    simp at h1 h2 h3
    omega
  · exact hc

theorem make83Loop_head {st st' : NameState} {cs : List UInt8} (h : make83Loop st cs = some st')
    (hext : 8 ≤ st.extPos) (hst : 0 < st.namePos → st.out 0 ≠ 0x2E) (hpos : 0 < st'.namePos) :
    st'.out 0 ≠ 0x2E := by
  induction cs generalizing st with
  | nil =>
    cases h
    exact hst hpos
  | cons c cs ih =>
    rw [make83Loop] at h
    split_ifs at h with hsep hdot hblank hin hfull hfull
    · exact ih h le_rfl (fun hp => absurd hp (by decide))
    · exact ih h hext hst
    · exact ih h hext hst
    · refine ih h hext (fun _ => ?_)
      by_cases hz : st.namePos = 0
      · simpa only [hz, update_self] using upper_ne_dot hdot
      · simp only [update_of_ne (Ne.symm hz)]
        exact hst (pos_of_ne_zero hz)
    · refine ih h (le_succ_of_le hext) (fun hp => ?_)
      have hne : (0 : ℕ) ≠ st.extPos := by omega
      simpa only [update_of_ne hne] using hst hp
theorem make83Name_head {short : Buf} (h : make83Name name = some short) : short 0 ≠ 0x2E := by
  unfold make83Name at h
  split_ifs at h with hnil
  cases hloop : make83Loop NameState.start name with
  | none => simp [hloop] at h
  | some st =>
    simp only [hloop] at h
    split_ifs at h with hpos
    cases h
    exact make83Loop_head hloop le_rfl (fun hp => absurd hp (by decide)) hpos

theorem sameName_head {target : Buf} (h : sameName e target = true) : e 0 = target 0 := by
  have := all_eq_true.1 h 0 (by decide)
  simpa using this

theorem scanEntries_found_first (h : scanEntries entry name target left i .reset = .found i) :
    ∃ short, target = some short ∧ sameName (entry i) short = true := by
  cases left with
  | zero => cases h
  | succ left =>
    rw [scanEntries_succ] at h
    split_ifs at h with h0 hhit
    · have hmatch := (and_eq_true_iff.1 hhit).2
      cases target with
      | none => cases hmatch
      | some short => exact ⟨short, rfl, hmatch⟩
    all_goals exact absurd (scanEntries_found h).1 (not_succ_le_self i)

theorem scanEntries_skip (hlfn : entryIsLfn (entry i) = false) (hk : i ≠ k)
    (h : scanEntries entry name target (left + 1) i st = .found k) :
    scanEntries entry name target left (i + 1) .reset = .found k := by
  rw [scanEntries_succ, hlfn, if_neg Bool.false_ne_true] at h
  split_ifs at h with h0 hhit
  · cases h
    exact absurd rfl hk
  · exact h

theorem not_isDot_of_found (hslots : 2 ≤ m.slots)
    (h : scanEntries (v.slot k) name (make83Name name) m.slots 0 .reset = .found i) :
    isDot v k i = false := by
  obtain ⟨n, hn⟩ : ∃ n, m.slots = n + 2 := ⟨m.slots - 2, by omega⟩
  have hshort : ∀ {e dots : Buf}, dots 0 = 0x2E → sameName e dots = true →
      (∃ short, make83Name name = some short ∧ sameName e short = true) → False := by
    intro e dots hdots he hfound
    obtain ⟨short, hmake, hsame⟩ := hfound
    have := make83Name_head hmake
    rw [← sameName_head hsame, sameName_head he, hdots] at this
    exact this rfl
  by_contra hdot
  simp only [isDot, not_eq_false, or_eq_true, and_eq_true, beq_iff_eq,
    not_eq_true'] at hdot
  rcases hdot with ⟨rfl, hname⟩ | ⟨⟨rfl, hname⟩, hlfn⟩
  · exact hshort rfl hname (scanEntries_found_first h)
  · rw [hn] at h
    exact hshort rfl hname
      (scanEntries_found_first (scanEntries_skip hlfn zero_ne_one h))

section

variable {writable : Bool} {env : Env Buf} {w : World Buf}

theorem validCluster_of_inRange (hg : Geometry m) (hc : InRange m c) : validCluster c = true := by
  have hmax := hg.max_lt
  obtain ⟨h2, hlt⟩ := hc
  rw [validCluster_iff]
  omega

theorem validCluster_of_endOfChain (hc : EndOfChain c) : validCluster c = false := by
  have h : 0x0FFFFFF8 ≤ c := hc
  simp [validCluster, isEoc, h]

theorem entryOf_wrapping (disk buf : Buf) {c i : ℕ} (hi : i < m.slots) :
    entryOf (buf.copyAt 0 m.clusterSize fun j => disk (u32 (m.clusterOffset c + j))) i =
      slotAt m disk c i := by
  have hsize := m.clusterSize_eq
  funext j
  unfold slotAt entryOf
  split_ifs with hj
  · rw [Buf.copyAt_of_mem (Nat.zero_le _) (by omega), Nat.sub_zero]
  · rfl

theorem findEntryLoop_eq (left c : ℕ) (buf : Buf) :
    findEntryLoop (diskFs writable env m) name target left c buf w =
      (searchFrom m w.dev name target left c, w) := by
  induction left generalizing c buf with
  | zero => rfl
  | succ left ih =>
    have hscan : scanEntries (entryOf (buf.copyAt 0 m.clusterSize
          fun j => w.dev (u32 (m.clusterOffset c + j)))) name target m.slots 0 .reset =
        scanEntries (slotAt m w.dev c) name target m.slots 0 .reset :=
      scanEntries_congr (fun j _ hj => .inl (entryOf_wrapping w.dev buf (by omega)))
    rw [findEntryLoop, searchFrom]
    split_ifs with hvalid
    · simp only [bind_apply, diskFs_dev, diskFs_mount, vfsReadDevice_wrapping, hscan]
      cases hcase : scanEntries (slotAt m w.dev c) name target m.slots 0 .reset with
      | endOfDir => rfl
      | found i =>
        have hi := (scanEntries_found hcase).2.1
        simp only [pure_apply, entryOf_wrapping w.dev buf (by omega : i < m.slots)]
      | exhausted => simp only [bind_apply, getNextCluster_eq_linkOf, ih]
    · rfl

theorem findEntryInDir_eq (c : ℕ) : findEntryInDir (diskFs writable env m) c name w =
    (if env.kmallocOk w.allocs then
      searchFrom m w.dev name (make83Name name) (m.maxClusters + 1) c else none, w.bump 1) := by
  simp only [findEntryInDir, diskFs_env, diskFs_mount, bind_apply]
  cases hok : env.kmallocOk w.allocs with
  | false => rw [kmallocBuf_of_fail hok]; rfl
  | true => simp only [kmallocBuf_of_ok hok, findEntryLoop_eq, World.bump_dev, if_true]

theorem findFreeSlotLoop_eq (left c : ℕ) (buf : Buf) :
    findFreeSlotLoop (diskFs writable env m) left c buf w = (freeSlotFrom m w.dev left c, w) := by
  induction left generalizing c buf with
  | zero => rfl
  | succ left ih =>
    have hscan : freeSlotIn (entryOf (buf.copyAt 0 m.clusterSize
          fun j => w.dev (u32 (m.clusterOffset c + j)))) m.slots =
        freeSlotIn (slotAt m w.dev c) m.slots :=
      freeSlotIn_congr (fun j hj => entryOf_wrapping w.dev buf hj)
    rw [findFreeSlotLoop, freeSlotFrom]
    split_ifs with hvalid
    · simp only [Io.bind_apply, diskFs_dev, diskFs_mount, vfsReadDevice_wrapping, Option.getD_some,
        hscan]
      cases freeSlotIn (slotAt m w.dev c) m.slots with
      | some i => rfl
      | none =>
        simp only [Io.bind_apply, getNextCluster_eq_linkOf, Io.ite_apply, ih]
        split_ifs with hstop
        · cases left with
          | zero => rfl
          | succ left => rw [freeSlotFrom, validCluster_of_endOfChain hstop]; rfl
        · rfl
    · rfl

theorem findFreeSlotInDir_eq (c : ℕ) : findFreeSlotInDir (diskFs writable env m) c w =
    (if env.kmallocOk w.allocs then freeSlotFrom m w.dev (m.maxClusters + 1) c else none,
      w.bump 1) := by
  simp only [findFreeSlotInDir, diskFs_env, diskFs_mount, bind_apply]
  cases hok : env.kmallocOk w.allocs with
  | false => rw [kmallocBuf_of_fail hok]; rfl
  | true => simp only [kmallocBuf_of_ok hok, findFreeSlotLoop_eq, World.bump_dev, if_true]

variable (hg : Geometry m)
include hg

theorem slotAt_inRange (disk : Buf) (hc : InRange m c) (hi : i < m.slots) :
    slotAt m disk c i = (viewOf m disk).slot c i := by
  have hend := hg.cluster_lt hc
  have hsize := m.clusterSize_eq
  funext j
  change entryOf _ i j = entryOf _ i j
  unfold entryOf
  split_ifs with hj
  · rw [hg.clusterOffset_eq hc]
    exact congrArg disk (u32_of_lt (by omega))
  · rfl

theorem linkOf_inRange (disk : Buf) (hc : InRange m c) :
    linkOf m disk c = (viewOf m disk).next c := by
  rw [linkOf, hg.entryPos_eq hc.2]
  rfl

theorem searchFrom_of_leads {disk : Buf}
    (hl : Leads (viewOf m disk).next (InRange m) EndOfChain c l) (hlen : l.length < left) :
    searchFrom m disk name target left c = findInClusters m (viewOf m disk) name target l := by
  induction l generalizing c left with
  | nil =>
    cases left with
    | zero => cases hlen
    | succ left =>
      rw [searchFrom, validCluster_of_endOfChain hl]
      rfl
  | cons d ds ih =>
    cases left with
    | zero => cases hlen
    | succ left =>
      obtain ⟨rfl, hd, hds⟩ := hl
      have hscan : scanEntries (slotAt m disk d) name target m.slots 0 .reset =
          scanEntries ((viewOf m disk).slot d) name target m.slots 0 .reset :=
        scanEntries_congr (fun j _ hj => .inl (slotAt_inRange hg disk hd (by omega)))
      rw [searchFrom, if_pos (validCluster_of_inRange hg hd), findInClusters, hscan,
        linkOf_inRange hg disk hd, ih hds (lt_of_succ_lt_succ hlen)]
      cases hcase : scanEntries ((viewOf m disk).slot d) name target m.slots 0 .reset with
      | endOfDir => rfl
      | found i =>
        have hi := (scanEntries_found hcase).2.1
        simp only [slotAt_inRange hg disk hd (by omega : i < m.slots)]
      | exhausted => rfl

theorem Chain.length_le {h : ℕ} (hl : Chain m v h l) : l.length ≤ m.maxClusters - 2 := by
  have hsub : l ⊆ List.range' 2 (m.maxClusters - 2) := by
    intro c hc
    obtain ⟨h2, hlt⟩ := hl.inRange hc
    exact mem_range'_1.2 (by omega)
  simpa using ((hl.nodup hg.max_lt).subperm hsub).length_le

theorem findEntryInDir_disk (hl : Chain m (viewOf m w.dev) c l) :
    Delivers env (findEntryInDir (diskFs writable env m) c name) w
      (findInClusters m (viewOf m w.dev) name (make83Name name) l) := by
  have hlen := hl.length_le hg
  refine ⟨1, ?_⟩
  rw [findEntryInDir_eq, searchFrom_of_leads hg hl.leads (by omega)]
  cases hok : env.kmallocOk w.allocs with
  | false => exact .inr ⟨rfl, w.allocs, hok⟩
  | true => exact .inl rfl

theorem freeSlotFrom_of_leads {disk : Buf}
    (hl : Leads (viewOf m disk).next (InRange m) EndOfChain c l) (hlen : l.length < left) :
    freeSlotFrom m disk left c = freeSlotInClusters m (viewOf m disk) l := by
  induction l generalizing c left with
  | nil =>
    cases left with
    | zero => cases hlen
    | succ left =>
      rw [freeSlotFrom, validCluster_of_endOfChain hl]
      rfl
  | cons d ds ih =>
    cases left with
    | zero => cases hlen
    | succ left =>
      obtain ⟨rfl, hd, hds⟩ := hl
      rw [freeSlotFrom, if_pos (validCluster_of_inRange hg hd), freeSlotInClusters,
        linkOf_inRange hg disk hd, ih hds (lt_of_succ_lt_succ hlen),
        freeSlotIn_congr (fun j hj => slotAt_inRange hg disk hd hj)]

theorem findFreeSlotInDir_disk (hl : Chain m (viewOf m w.dev) c l) :
    Delivers env (findFreeSlotInDir (diskFs writable env m) c) w
      (freeSlotInClusters m (viewOf m w.dev) l) := by
  have hlen := hl.length_le hg
  refine ⟨1, ?_⟩
  rw [findFreeSlotInDir_eq, freeSlotFrom_of_leads hg hl.leads (by omega)]
  cases hok : env.kmallocOk w.allocs with
  | false => exact .inr ⟨rfl, w.allocs, hok⟩
  | true => exact .inl rfl

end

theorem freeSlotInClusters_lt (h : freeSlotInClusters m v l = some i) : i < m.slots := by
  induction l with
  | nil => cases h
  | cons c cs ih =>
    rw [freeSlotInClusters] at h
    cases hcase : freeSlotIn (v.slot c) m.slots with
    | some k =>
      simp only [hcase, Option.some.injEq] at h
      exact h ▸ mem_range.1 (mem_of_find?_eq_some hcase)
    | none =>
      simp only [hcase] at h
      exact ih h

theorem findInClusters_spec {f : Found} (hslots : 2 ≤ m.slots)
    (h : findInClusters m v name (make83Name name) l = some f) :
    f.cluster ∈ l ∧ f.index < m.slots ∧ f.entry = v.slot f.cluster f.index ∧
      entryIsUsable f.entry = true ∧ isDot v f.cluster f.index = false := by
  induction l with
  | nil => cases h
  | cons c cs ih =>
    rw [findInClusters] at h
    cases hcase : scanEntries (v.slot c) name (make83Name name) m.slots 0 .reset with
    | endOfDir => simp [hcase] at h
    | found i =>
      simp only [hcase, Option.some.injEq] at h
      subst h
      obtain ⟨-, hlt, hus⟩ := scanEntries_found hcase
      rw [zero_add] at hlt
      exact ⟨mem_cons_self, hlt, rfl, hus, not_isDot_of_found hslots hcase⟩
    | exhausted =>
      simp only [hcase] at h
      obtain ⟨hmem, hrest⟩ := ih h
      exact ⟨mem_cons_of_mem c hmem, hrest⟩

end MicroK.Fat32
