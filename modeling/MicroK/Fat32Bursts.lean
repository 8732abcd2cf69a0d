import MicroK.Fat32Runs

/-!
# Burst loading against plain reading

`fat32_load_file` reads runs of up to 64 clusters straight into the buffer. It leaves the same
bytes, size and success as `fat32_read` of the whole file as long as no burst reaches 4 GiB: there
the sum `total_read + bytes_to_read` wraps, the last burst is not cut at the size of the file and
the total starts again from the bottom.
-/

namespace MicroK.Fat32

open Nat

section

variable {σ : Type} (fs : Fs σ)

def loadEntry (e buffer : Buf) (bufferSize : ℕ) : Io σ Loaded :=
  if !entryIsFile e then pure ⟨false, 0, buffer⟩
  else if bufferSize < entrySize e then pure ⟨false, 0, buffer⟩
  else if entrySize e = 0 then pure ⟨true, 0, buffer⟩
  else loadLoop fs (entrySize e) (entrySize e) (entryCluster e) 0 buffer

end

/-- How many clusters, at most `left`, come after `c` both in the chain and on the disk. -/
def runLength (m : Mount) (disk : Buf) : ℕ → ℕ → ℕ
  | 0, _ => 0
  | left + 1, c =>
    if validCluster (linkOf m disk c) ∧ linkOf m disk c = c + 1 then
      runLength m disk left (c + 1) + 1
    else 0

def burstLength (m : Mount) (disk : Buf) (c : ℕ) : ℕ := runLength m disk 63 c + 1

/-- The bytes that the burst at `c` asks for, with `t` bytes in the buffer. -/
def burstBytes (m : Mount) (disk : Buf) (size c t : ℕ) : ℕ :=
  if size < u32 (t + burstLength m disk c * m.clusterSize) then size - t
  else burstLength m disk c * m.clusterSize

variable {m : Mount} {disk : Buf} {first size : ℕ}

theorem runLength_le (left c : ℕ) : runLength m disk left c ≤ left := by
  induction left generalizing c with
  | zero => exact le_rfl
  | succ left ih =>
    rw [runLength]
    split_ifs
    · exact succ_le_succ (ih _)
    · exact zero_le _

theorem nthCluster_of_le_runLength {left c q : ℕ} (hq : q ≤ runLength m disk left c) :
    nthCluster m disk c q = c + q ∧ (0 < q → validCluster (c + q) = true) := by
  induction left generalizing c q with
  | zero =>
    obtain rfl : q = 0 := le_zero.1 hq
    exact ⟨rfl, fun h => absurd h (lt_irrefl 0)⟩
  | succ left ih =>
    cases q with
    | zero => exact ⟨rfl, fun h => absurd h (lt_irrefl 0)⟩
    | succ q =>
      rw [runLength] at hq
      split_ifs at hq with hnext
      · obtain ⟨hwalk, hvalid⟩ := ih (le_of_succ_le_succ hq)
        rw [nthCluster_succ', hnext.2, hwalk, show c + (q + 1) = c + 1 + q by omega]
        refine ⟨rfl, fun _ => ?_⟩
        rcases Nat.eq_zero_or_pos q with rfl | hpos
        · rw [add_zero, ← hnext.2]
          exact hnext.1
        · exact hvalid hpos
      · omega

theorem burstLength_pos (c : ℕ) : 0 < burstLength m disk c := succ_pos _

theorem burstLength_le (c : ℕ) : burstLength m disk c ≤ 64 := succ_le_succ (runLength_le 63 c)

theorem nthCluster_of_lt_burstLength {c q : ℕ} (hq : q < burstLength m disk c) :
    nthCluster m disk c q = c + q :=
  (nthCluster_of_le_runLength (le_of_lt_succ hq)).1

theorem validCluster_of_lt_burstLength {c q : ℕ} (hc : validCluster c = true)
    (hq : q < burstLength m disk c) : validCluster (nthCluster m disk c q) = true := by
  obtain ⟨hwalk, hvalid⟩ := nthCluster_of_le_runLength (le_of_lt_succ hq)
  rw [hwalk]
  rcases Nat.eq_zero_or_pos q with rfl | hpos
  · exact hc
  · exact hvalid hpos

section

variable {writable : Bool} {env : Env Buf} {w : World Buf}

theorem burst_eq_runLength {left rest c count : ℕ} (hcount : count + rest = 64)
    (hleft : rest ≤ left) :
    burst (diskFs writable env m) left c (linkOf m w.dev c) count w =
      ((nthCluster m w.dev c (runLength m w.dev rest c + 1), count + runLength m w.dev rest c),
        w) := by
  induction rest generalizing left c count with
  | zero =>
    cases left with
    | zero => rfl
    | succ left => rw [burst, if_neg (by omega)]; rfl
  | succ rest ih =>
    obtain ⟨left, rfl⟩ : ∃ l, left = l + 1 := ⟨left - 1, by omega⟩
    rw [burst, runLength]
    by_cases hnext : validCluster (linkOf m w.dev c) = true ∧ linkOf m w.dev c = c + 1
    · rw [if_pos ⟨hnext.1, hnext.2, by omega⟩, if_pos hnext, Io.bind_apply,
        getNextCluster_eq_linkOf]
      have hrun := @ih left (c + 1) (count + 1) (by omega) (by omega)
      rw [hnext.2]
      apply hrun.trans
      have hwalk : nthCluster m w.dev c (runLength m w.dev rest (c + 1) + 1 + 1) = _ :=
        nthCluster_succ' _
      rw [hwalk, hnext.2, add_right_comm, add_assoc count]
    · rw [if_neg (fun h => hnext ⟨h.1, h.2.1⟩), if_neg hnext]
      rfl

variable (hword : 64 * m.clusterSize < 2 ^ 32)
include hword

theorem burst_bytes_lt (c : ℕ) : burstLength m disk c * m.clusterSize < 2 ^ 32 :=
  (mul_le_mul_right _ (burstLength_le c)).trans_lt hword

theorem loadLoop_burst (hab : ∀ n, env.abort n = false)
    {fuel c t : ℕ} (buffer : Buf) (hvalid : validCluster c = true) (ht : t < size) :
    loadLoop (diskFs writable env m) size (fuel + 1) c t buffer w =
      loadLoop (diskFs writable env m) size fuel (nthCluster m w.dev c (burstLength m w.dev c))
        (u32 (t + burstBytes m w.dev size c t)) (buffer.copyAt t (burstBytes m w.dev size c t)
          (fun j => w.dev (u32 (m.clusterOffset c + j)))) { w with polls := w.polls + 1 } := by
  have hburst : burst (diskFs writable env m) 64 c (linkOf m w.dev c) 1
      { w with polls := w.polls + 1 } =
        ((nthCluster m w.dev c (burstLength m w.dev c), burstLength m w.dev c),
          { w with polls := w.polls + 1 }) := by
    refine (@burst_eq_runLength m writable env { w with polls := w.polls + 1 } 64 63 c 1 rfl
      (by norm_num)).trans ?_
    rw [burstLength, add_comm 1]
  have hwanted : u32 (burstLength m w.dev c * m.clusterSize) =
      burstLength m w.dev c * m.clusterSize :=
    u32_of_lt (burst_bytes_lt hword c)
  rw [loadLoop, if_pos ⟨hvalid, ht⟩]
  simp only [Io.bind_apply, sysAbortRequested, diskFs_env, diskFs_dev, diskFs_mount, hab,
    Bool.false_eq_true, if_false, getNextCluster_eq_linkOf, hburst, hwanted,
    vfsReadDevice_wrapping, Buf.copyAt_copyAt]
  rfl

theorem loadLoop_buffer_congr (hab : ∀ n, env.abort n = false)
    {fuel c t x : ℕ} {buffer buffer' : Buf} (hx : buffer x = buffer' x) :
    (loadLoop (diskFs writable env m) size fuel c t buffer w).1.buffer x =
      (loadLoop (diskFs writable env m) size fuel c t buffer' w).1.buffer x := by
  induction fuel generalizing c t buffer buffer' w with
  | zero => exact hx
  | succ fuel ih =>
    by_cases hgo : validCluster c = true ∧ t < size
    · rw [loadLoop_burst hword hab _ hgo.1 hgo.2, loadLoop_burst hword hab _ hgo.1 hgo.2]
      apply ih
      unfold Buf.copyAt
      split_ifs
      · rfl
      · exact hx
    · rw [loadLoop, loadLoop, if_neg hgo, if_neg hgo]
      exact hx

end

/-- A load goes through a burst, at the `i`-th cluster of the chain or later, that reaches 4 GiB. -/
inductive ReachesLimit (m : Mount) (disk : Buf) (first size : ℕ) : ℕ → Prop
  | here {i : ℕ} (hlt : i * m.clusterSize < size)
      (hvalid : validCluster (nthCluster m disk first i) = true)
      (hend : 2 ^ 32 ≤ (i + burstLength m disk (nthCluster m disk first i)) * m.clusterSize) :
      ReachesLimit m disk first size i
  | later {i : ℕ} (hlt : i * m.clusterSize < size)
      (hvalid : validCluster (nthCluster m disk first i) = true)
      (hnext : ReachesLimit m disk first size
        (i + burstLength m disk (nthCluster m disk first i))) :
      ReachesLimit m disk first size i

theorem ReachesLimit.lt_size {i : ℕ} (h : ReachesLimit m disk first size i) :
    i * m.clusterSize < size := by
  cases h with
  | here hlt => exact hlt
  | later hlt => exact hlt

/-- Only files within 64 clusters of 4 GiB are at risk. -/
theorem not_reachesLimit_of_size (hsize : size + 64 * m.clusterSize ≤ 2 ^ 32) (i : ℕ) :
    ¬ ReachesLimit m disk first size i := by
  intro h
  induction h with
  | @here i hlt hvalid hend =>
    have hlen : burstLength m disk (nthCluster m disk first i) * m.clusterSize ≤
        64 * m.clusterSize := mul_le_mul_right _ (burstLength_le _)
    rw [add_mul] at hend
    omega
  | later _ _ _ ih => exact ih

section

variable {writable : Bool} {env : Env Buf} {w : World Buf}

theorem filled_burst (buffer : Buf) {i n : ℕ}
    (hn : n ≤ burstLength m disk (nthCluster m disk first i) * m.clusterSize) :
    (filled m disk first buffer (i * m.clusterSize)).copyAt (i * m.clusterSize) n
      (fun j => disk (u32 (m.clusterOffset (nthCluster m disk first i) + j))) =
        filled m disk first buffer (i * m.clusterSize + n) := by
  refine filled_copyAt buffer (fun r hr => (fileByte_of_run (fun q hq => ?_)
    (hr.trans_le hn)).symm)
  rw [nthCluster_add, nthCluster_of_lt_burstLength hq]

/-- As long as no burst reaches 4 GiB, a load goes on to the end of the transfer. -/
theorem loadLoop_walk (hpos : 0 < m.clusterSize) (hword : 64 * m.clusterSize < 2 ^ 32)
    (hab : ∀ n, env.abort n = false) (hsize : size < 2 ^ 32) {fuel i : ℕ} (buffer : Buf)
    (hvalid : ∀ j < i, validCluster (nthCluster m w.dev first j) = true)
    (hno : ¬ ReachesLimit m w.dev first size i) (hfuel : size ≤ i * m.clusterSize + fuel) :
    ∃ t, EndsAfter m w.dev first size t ∧
      (loadLoop (diskFs writable env m) size fuel (nthCluster m w.dev first i)
        (min (i * m.clusterSize) size)
        (filled m w.dev first buffer (min (i * m.clusterSize) size)) w).1 =
      ⟨t == size, t, filled m w.dev first buffer t⟩ := by
  induction fuel generalizing i w with
  | zero => exact ⟨_, ⟨i, rfl, hvalid, .inl hfuel⟩, rfl⟩
  | succ fuel ih =>
    by_cases hgo : validCluster (nthCluster m w.dev first i) = true ∧ i * m.clusterSize < size
    · have hmin : min (i * m.clusterSize) size = i * m.clusterSize := min_eq_left hgo.2.le
      rw [hmin, loadLoop_burst hword hab _ hgo.1 hgo.2]
      set n := burstLength m w.dev (nthCluster m w.dev first i) with hn
      have hend : (i + n) * m.clusterSize < 2 ^ 32 :=
        not_le.1 (fun h => hno (.here hgo.2 hgo.1 h))
      have hone : m.clusterSize ≤ n * m.clusterSize :=
        Nat.le_mul_of_pos_left _ (burstLength_pos _)
      rw [add_mul] at hend
      have hbytes : burstBytes m w.dev size (nthCluster m w.dev first i) (i * m.clusterSize) =
          min (n * m.clusterSize) (size - i * m.clusterSize) := by
        rw [burstBytes, ← hn, u32_of_lt hend]
        split_ifs <;> omega
      have htotal : i * m.clusterSize + min (n * m.clusterSize) (size - i * m.clusterSize) =
          min ((i + n) * m.clusterSize) size := by
        rw [add_mul]
        omega
      rw [hbytes, filled_burst buffer (min_le_left _ _), htotal, u32_of_lt (by omega),
        ← nthCluster_add]
      refine @ih { w with polls := w.polls + 1 } (i + n) (fun j hj => ?_)
        (fun h => hno (.later hgo.2 hgo.1 h)) (by rw [add_mul]; omega)
      by_cases hji : j < i
      · exact hvalid j hji
      · rw [show j = i + (j - i) by omega, nthCluster_add]
        exact validCluster_of_lt_burstLength hgo.1 (show j - i < n by omega)
    · refine ⟨_, ⟨i, rfl, hvalid, ?_⟩, ?_⟩
      · rcases not_and_or.1 hgo with hinvalid | hlt
        · exact .inr (Bool.eq_false_of_not_eq_true hinvalid)
        · exact .inl (not_lt.1 hlt)
      · rw [loadLoop, if_neg (fun h => hgo ⟨h.1, by omega⟩), Io.pure_apply]

/-- Once a burst reaches 4 GiB, the byte behind the file is the same whatever it was before. -/
theorem loadLoop_of_reachesLimit (hpos : 0 < m.clusterSize)
    (hword : 64 * m.clusterSize < 2 ^ 32) (hab : ∀ n, env.abort n = false) (hsize : size < 2 ^ 32)
    {fuel i : ℕ} (buffer buffer' : Buf) (hlimit : ReachesLimit m w.dev first size i)
    (hfuel : size ≤ i * m.clusterSize + fuel) :
    (loadLoop (diskFs writable env m) size fuel (nthCluster m w.dev first i)
        (i * m.clusterSize) buffer w).1.buffer size =
      (loadLoop (diskFs writable env m) size fuel (nthCluster m w.dev first i)
        (i * m.clusterSize) buffer' w).1.buffer size := by
  induction fuel generalizing i buffer buffer' w with
  | zero => exact absurd hlimit.lt_size (not_lt.2 hfuel)
  | succ fuel ih =>
    have hlt := hlimit.lt_size
    have hvalid : validCluster (nthCluster m w.dev first i) = true := by
      cases hlimit <;> assumption
    rw [loadLoop_burst hword hab _ hvalid hlt, loadLoop_burst hword hab _ hvalid hlt]
    set n := burstLength m w.dev (nthCluster m w.dev first i) with hn
    have hbytes_lt : n * m.clusterSize < 2 ^ 32 := burst_bytes_lt hword _
    have hone : m.clusterSize ≤ n * m.clusterSize :=
      Nat.le_mul_of_pos_left _ (burstLength_pos _)
    by_cases hend : 2 ^ 32 ≤ i * m.clusterSize + n * m.clusterSize
    · have hbytes : burstBytes m w.dev size (nthCluster m w.dev first i) (i * m.clusterSize) =
          n * m.clusterSize := by
        rw [burstBytes, ← hn, if_neg]
        unfold u32
        omega
      apply loadLoop_buffer_congr hword hab
      rw [Buf.copyAt_of_mem hlt.le (by omega), Buf.copyAt_of_mem hlt.le (by omega)]
    · have hnext : ReachesLimit m w.dev first size (i + n) := by
        cases hlimit with
        | here _ _ hreach =>
          rw [add_mul] at hreach
          exact absurd hreach hend
        | later _ _ hnext => exact hnext
      have hsum := hnext.lt_size
      rw [add_mul] at hsum
      have hbytes : burstBytes m w.dev size (nthCluster m w.dev first i) (i * m.clusterSize) =
          n * m.clusterSize := by
        rw [burstBytes, ← hn, u32_of_lt (by omega), if_neg (by omega)]
      rw [hbytes, u32_of_lt (by omega), ← add_mul, ← nthCluster_add]
      exact @ih { w with polls := w.polls + 1 } (i + n) _ _ hnext (by rw [add_mul]; omega)

end

/-- A load leaves what a read of `size` bytes leaves, and succeeds when the read is complete. -/
def Loaded.Agrees (r : Loaded) (size : ℕ) (q : ℕ × Buf) : Prop :=
  r.ok = (q.1 == size) ∧ r.outSize = q.1 ∧ r.buffer = q.2

/-- Loading an entry agrees with reading its chain, for every buffer, exactly when no burst of the
load reaches 4 GiB. -/
theorem loadEntry_agrees_iff {writable : Bool} {env : Env Buf} {m : Mount}
    (hspc : 0 < m.sectorsPerCluster) (hspc' : m.sectorsPerCluster < 256)
    (hok : ∀ n, env.kmallocOk n = true) (hab : ∀ n, env.abort n = false) (w : World Buf)
    {e : Buf} {bufferSize : ℕ} (hfile : entryIsFile e = true) (hbuf : entrySize e ≤ bufferSize) :
    (∀ buffer, (loadEntry (diskFs writable env m) e buffer bufferSize w).1.Agrees (entrySize e)
      (read (diskFs writable env m) (entryCluster e) 0 (entrySize e) buffer w).1) ↔
    ¬ ReachesLimit m w.dev (entryCluster e) (entrySize e) 0 := by
  have hpos : 0 < m.clusterSize := mul_pos hspc (by norm_num)
  have hword : 64 * m.clusterSize < 2 ^ 32 := by
    unfold Mount.clusterSize
    omega
  have hsize : entrySize e < 2 ^ 32 := le32_lt e 28
  by_cases hzero : entrySize e = 0
  · have hlimit : ¬ ReachesLimit m w.dev (entryCluster e) (entrySize e) 0 := by
      intro h
      have hlt := h.lt_size
      omega
    refine iff_of_true (fun buffer => ?_) hlimit
    obtain ⟨t, hend, hread⟩ := @read_walk m (entryCluster e) writable env w (entrySize e) buffer
      hpos hok
    have ht : t = 0 := by
      have hle := hend.le_size
      omega
    rw [hread, ht, filled_zero, loadEntry, hfile, hzero]
    simp [Loaded.Agrees]
  · have hload : ∀ buffer, loadEntry (diskFs writable env m) e buffer bufferSize =
        loadLoop (diskFs writable env m) (entrySize e) (entrySize e) (entryCluster e) 0 buffer := by
      intro buffer
      rw [loadEntry, hfile, if_neg (by simp), if_neg (not_lt.2 hbuf), if_neg hzero]
    simp only [hload]
    constructor
    · intro hagree hlimit
      have hsame := @loadLoop_of_reachesLimit m (entryCluster e) (entrySize e) writable env w hpos
        hword hab hsize (entrySize e) 0 (fun _ => 0) (fun _ => 1) hlimit (by omega)
      rw [zero_mul] at hsame
      have hkeep : ∀ buffer : Buf, (loadLoop (diskFs writable env m) (entrySize e) (entrySize e)
          (entryCluster e) 0 buffer w).1.buffer (entrySize e) = buffer (entrySize e) := by
        intro buffer
        obtain ⟨t, hend, hread⟩ := @read_walk m (entryCluster e) writable env w (entrySize e)
          buffer hpos hok
        rw [(hagree buffer).2.2, hread]
        exact if_neg (not_lt.2 hend.le_size)
      exact absurd ((hkeep _).symm.trans (hsame.trans (hkeep _))) (by decide)
    · intro hno buffer
      obtain ⟨t, hend, hread⟩ := @read_walk m (entryCluster e) writable env w (entrySize e) buffer
        hpos hok
      obtain ⟨t', hend', hrun⟩ := @loadLoop_walk m (entryCluster e) (entrySize e) writable env w
        hpos hword hab hsize (entrySize e) 0 buffer (fun j hj => absurd hj (not_lt_zero j)) hno
        (by omega)
      rw [zero_mul, zero_min, filled_zero] at hrun
      rw [hend'.unique hend] at hrun
      rw [hread]
      exact ⟨congrArg Loaded.ok hrun, congrArg Loaded.outSize hrun, congrArg Loaded.buffer hrun⟩

/-- The chain 2, 3, 4, 7, which is loaded in two bursts. -/
def splitDisk : Buf :=
  [(2, 3), (3, 4), (4, 7), (7, 0x0FFFFFFF)].foldl
    (fun disk link => disk.setLe32 (smallMount.entryPos link.1) link.2) fun _ => 0

def splitEntry : Buf := withSize (newEntry (fun _ => 0x41) 0x20 2) 1600

theorem loadEntry_agrees_split :
    burstLength smallMount splitDisk 2 = 3 ∧ burstLength smallMount splitDisk 7 = 1 ∧
    (loadEntry (diskFs false plainEnv smallMount) splitEntry (fun _ => 0) 2048
      (bootWorld splitDisk)).1.ok = true ∧
    (loadEntry (diskFs false plainEnv smallMount) splitEntry (fun _ => 0) 2048
      (bootWorld splitDisk)).1.Agrees (entrySize splitEntry)
    (read (diskFs false plainEnv smallMount) (entryCluster splitEntry) 0 (entrySize splitEntry)
      (fun _ => 0) (bootWorld splitDisk)).1 := by
  have hsize : entrySize splitEntry = 1600 := by decide
  refine ⟨by decide +kernel, by decide +kernel, by decide +kernel, ?_⟩
  exact (loadEntry_agrees_iff (by decide) (by decide) (fun _ => rfl) (fun _ => rfl) _ (by decide)
    (by decide)).2 (not_reachesLimit_of_size (by rw [hsize]; decide) 0) _

def loopDisk : Buf := Buf.setLe32 (fun _ => 0) (smallMount.entryPos 2) 2

def largestEntry : Buf := withSize (newEntry (fun _ => 0x41) 0x20 2) (2 ^ 32 - 1)

theorem linkOf_loopDisk : linkOf smallMount loopDisk 2 = 2 := by
  rfl

/-- Whole sectors never add up to an odd size, and the total wraps before it gets there. -/
theorem loadLoop_loopDisk {fuel t : ℕ} {buffer : Buf} {w : World Buf} (hw : w.dev = loopDisk)
    (ht : t % 512 = 0) :
    (loadLoop (diskFs false plainEnv smallMount) (2 ^ 32 - 1) fuel 2 t buffer w).1.ok = false := by
  have hodd : (t == 2 ^ 32 - 1) = false := beq_eq_false_iff_ne.2 (by omega)
  induction fuel generalizing t buffer w with
  | zero => exact hodd
  | succ fuel ih =>
    by_cases hlt : t < 2 ^ 32 - 1
    · have hlen : burstLength smallMount loopDisk 2 = 1 := by
        rw [burstLength, runLength, linkOf_loopDisk, if_neg (by decide)]
      have hbytes : burstBytes smallMount loopDisk (2 ^ 32 - 1) 2 t = 512 := by
        rw [burstBytes, hlen, show smallMount.clusterSize = 512 from rfl, if_neg]
        unfold u32
        omega
      rw [loadLoop_burst (by decide) (fun _ => rfl) _ (by decide) hlt, hw, hlen, hbytes]
      have hnext : nthCluster smallMount loopDisk 2 1 = 2 := linkOf_loopDisk
      have hmod : u32 (t + 512) % 512 = 0 := by
        unfold u32
        omega
      exact @ih _ _ ⟨loopDisk, w.allocs, w.polls + 1⟩ (by simp only) hmod
        (beq_eq_false_iff_ne.2 (by omega))
    · rw [loadLoop, if_neg (fun h => hlt h.2)]
      exact hodd

/-- On a chain that runs in a circle the read is complete and the load never is. -/
theorem load_fails_where_read_succeeds :
    (loadEntry (diskFs false plainEnv smallMount) largestEntry (fun _ => 0) (2 ^ 32 - 1)
      (bootWorld loopDisk)).1.ok = false ∧
    (read (diskFs false plainEnv smallMount) (entryCluster largestEntry) 0
      (entrySize largestEntry) (fun _ => 0) (bootWorld loopDisk)).1.1 =
        entrySize largestEntry := by
  have hsize : entrySize largestEntry = 2 ^ 32 - 1 := by decide
  have hcluster : entryCluster largestEntry = 2 := by decide
  have hfile : entryIsFile largestEntry = true := by decide
  constructor
  · rw [loadEntry, hfile, hsize, hcluster, if_neg (by simp), if_neg (by norm_num),
      if_neg (by norm_num)]
    exact loadLoop_loopDisk (bootWorld_dev loopDisk) rfl
  · rw [hcluster, hsize]
    obtain ⟨t, ⟨k, rfl, -, hend⟩, hread⟩ := @read_walk smallMount 2 false plainEnv
      (bootWorld loopDisk) (2 ^ 32 - 1) (fun _ => 0) (by decide) (fun _ => rfl)
    rw [hread]
    rcases hend with hfull | hinvalid
    · exact min_eq_right hfull
    · rw [bootWorld_dev, nthCluster_eq_of_link_self linkOf_loopDisk] at hinvalid
      cases hinvalid

end MicroK.Fat32
