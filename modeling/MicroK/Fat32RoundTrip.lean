import MicroK.Fat32Bursts
import MicroK.Fat32Rollback

/-!
# Loading what was written

After a write the path leads to the same slot, since a lookup does not read sizes, and the chain of
the file holds the data. The size in the entry is raised but never lowered, and a device without a
write function takes no data at all, so a load returns what was written exactly when the file did
not shrink and the device can write.
-/

namespace MicroK.Fat32

open SuccessorChain Option Nat

def chainByte (m : Mount) (disk : Buf) (l : List ℕ) (j : ℕ) : UInt8 :=
  disk (m.clusterPos (l.getD (j / m.clusterSize) 0) + j % m.clusterSize)

/-- The chain is long enough for `size` bytes and begins with them. -/
def FileHolds (m : Mount) (disk : Buf) (l : List ℕ) (size : ℕ) (data : Buf) : Prop :=
  size ≤ l.length * m.clusterSize ∧ ∀ j < size, chainByte m disk l j = data j

variable {m : Mount} {disk : Buf}

theorem Geometry.clusterSize_pos (hg : Geometry m) : 0 < m.clusterSize :=
  mul_pos hg.spc_pos (by norm_num)

theorem chainByte_range' {c n j : ℕ} (hc : 2 ≤ c) (hj : j < n * m.clusterSize) :
    chainByte m disk (List.range' c n) j = disk (m.clusterPos c + j) := by
  have hdiv : j / m.clusterSize < n := Nat.div_lt_of_lt_mul (by rwa [Nat.mul_comm])
  have hget : (List.range' c n).getD (j / m.clusterSize) 0 = c + j / m.clusterSize := by
    simp [List.getD, hdiv]
  rw [chainByte, hget, Mount.clusterPos, Mount.clusterPos, Nat.sub_add_comm hc, Nat.add_mul]
  simp only [add_assoc, div_add_mod']

section

variable (hg : Geometry m) {c size : ℕ} {l : List ℕ}
  (hl : Leads (viewOf m disk).next (InRange m) EndOfChain c l)
include hg hl

theorem nthCluster_of_leads :
    (∀ i < l.length, nthCluster m disk c i = l.getD i 0 ∧ InRange m (l.getD i 0)) ∧
      validCluster (nthCluster m disk c l.length) = false := by
  induction l generalizing c with
  | nil => exact ⟨fun i hi => absurd hi (not_lt_zero i), validCluster_of_endOfChain hl⟩
  | cons d tail ih =>
    obtain ⟨rfl, hd, htail⟩ := hl
    have hlink : linkOf m disk d = nextOf m disk d := by
      rw [linkOf, hg.entryPos_eq hd.2]
      rfl
    obtain ⟨hin, hend⟩ := ih htail
    refine ⟨fun i hi => ?_, ?_⟩
    · cases i with
      | zero => exact ⟨rfl, hd⟩
      | succ i =>
        rw [nthCluster_succ', hlink, List.getD_cons_succ]
        exact hin i (lt_of_succ_lt_succ hi)
    · rw [List.length_cons, nthCluster_succ', hlink]
      exact hend

theorem endsAfter_of_leads : EndsAfter m disk c size (min (l.length * m.clusterSize) size) := by
  obtain ⟨hin, hend⟩ := nthCluster_of_leads hg hl
  refine ⟨l.length, rfl, fun j hj => ?_, .inr hend⟩
  rw [(hin j hj).1]
  exact validCluster_of_inRange hg (hin j hj).2

theorem burst_le_of_leads {i : ℕ} (hi : i ≤ l.length)
    (hvalid : validCluster (nthCluster m disk c i) = true) :
    i + burstLength m disk (nthCluster m disk c i) ≤ l.length := by
  by_contra hlt
  have hlast := validCluster_of_lt_burstLength hvalid (Nat.sub_lt_left_of_lt_add hi (not_le.1 hlt))
  rw [← nthCluster_add, add_sub_of_le hi, (nthCluster_of_leads hg hl).2] at hlast
  cases hlast

theorem not_reachesLimit_of_leads (hbound : l.length * m.clusterSize < 2 ^ 32) {i : ℕ}
    (hi : i ≤ l.length) : ¬ ReachesLimit m disk c size i := by
  intro h
  induction h with
  | here _ hvalid hend =>
    have hle := mul_le_mul_right m.clusterSize (burst_le_of_leads hg hl hi hvalid)
    omega
  | later _ hvalid _ ih => exact ih (burst_le_of_leads hg hl hi hvalid)

theorem fileByte_eq_chainByte {j : ℕ} (hj : j < l.length * m.clusterSize) :
    fileByte m disk c j = chainByte m disk l j := by
  obtain ⟨hwalk, hin⟩ := (nthCluster_of_leads hg hl).1 (j / m.clusterSize)
    (Nat.div_lt_of_lt_mul (by rwa [Nat.mul_comm]))
  have hlt := hg.cluster_lt hin
  have hmod := mod_lt j hg.clusterSize_pos
  rw [fileByte, hwalk, hg.clusterOffset_eq hin, chainByte, u32_of_lt (by omega)]

end

theorem Geometry.burst_lt (hg : Geometry m) : 64 * m.clusterSize < 2 ^ 32 := by
  have hmax := hg.max_eq
  have hpos := hg.max_pos
  have hend := hg.end_lt
  have hle : 64 * m.sectorsPerCluster ≤ (m.maxClusters - 2) * m.sectorsPerCluster :=
    mul_le_mul_right _ (by omega)
  unfold Mount.clusterSize
  omega

structure LoadedFrom (m : Mount) (disk : Buf) (size t : ℕ) (l : List ℕ)
    (buf buf' : Buf) : Prop where
  before : ∀ j < t, buf' j = buf j
  bytes : ∀ j, t ≤ j → j < min size (t + l.length * m.clusterSize) →
    buf' j = chainByte m disk l (j - t)

section

variable {writable : Bool} {env : Env Buf} {w : World Buf} (hg : Geometry m)
include hg

/-- The loop follows a proper chain to its end or to the end of the request. -/
theorem loadLoop_of_leads (hab : ∀ n, env.abort n = false) {size c : ℕ} {l : List ℕ}
    (hsize : size < 2 ^ 32) (hl : Leads (viewOf m w.dev).next (InRange m) EndOfChain c l)
    (hbound : l.length * m.clusterSize < 2 ^ 32) (buffer : Buf) :
    ∃ buf', (loadLoop (diskFs writable env m) size size c 0 buffer w).1 =
        ⟨min (l.length * m.clusterSize) size == size, min (l.length * m.clusterSize) size, buf'⟩ ∧
      LoadedFrom m w.dev size 0 l buffer buf' := by
  obtain ⟨t, hend, hrun⟩ := @loadLoop_walk m c size writable env w hg.clusterSize_pos hg.burst_lt
    hab hsize size 0 buffer (fun j hj => absurd hj (not_lt_zero j))
    (not_reachesLimit_of_leads hg hl hbound (zero_le _)) (by omega)
  rw [zero_mul, zero_min, filled_zero, ← (endsAfter_of_leads hg hl).unique hend] at hrun
  refine ⟨_, hrun, fun j hj => absurd hj (not_lt_zero j), fun j _ hj => ?_⟩
  rw [filled, if_pos (by omega), fileByte_eq_chainByte hg hl (by omega), Nat.sub_zero]

omit hg in
theorem Chain.bytes_lt (hg : Geometry m) {v : View} {h : ℕ} {l : List ℕ} (hl : Chain m v h l) :
    l.length * m.clusterSize < 2 ^ 32 := by
  have hlen := mul_le_mul_right m.clusterSize (hl.length_le hg)
  have hend := hg.end_lt
  have hsize : (m.maxClusters - 2) * m.clusterSize =
      (m.maxClusters - 2) * m.sectorsPerCluster * 512 := by
    rw [Mount.clusterSize, mul_assoc]
  omega

def Loaded.Returns (r : Loaded) (size : ℕ) (data : Buf) : Prop :=
  r.ok = true ∧ r.outSize = size ∧ ∀ j < size, r.buffer j = data j

/-- Loading returns given data exactly when the entry has their size and the chain holds them. -/
theorem loadFile_returns_iff (hok : ∀ n, env.kmallocOk n = true) (hab : ∀ n, env.abort n = false)
    (hc : Consistent m (viewOf m w.dev)) {path : List UInt8} {f : Found}
    (hf : resolvePathIn m (viewOf m w.dev) path = some f) (hfile : entryIsFile f.entry = true)
    {l : List ℕ} (hl : Chain m (viewOf m w.dev) (entryCluster f.entry) l) {bufferSize size : ℕ}
    (hbuf : size ≤ bufferSize) (buffer data : Buf) :
    (loadFile (diskFs writable env m) path buffer bufferSize w).1.Returns size data ↔
      entrySize f.entry = size ∧ FileHolds m w.dev l size data := by
  obtain ⟨n, hn⟩ : ∃ n, resolvePath (diskFs writable env m) path w = _ :=
    (resolvePath_disk hg hc path).of_ok hok
  rw [hf] at hn
  simp only [loadFile, Io.bind_apply, hn, hfile, Bool.not_true, Bool.false_eq_true, if_false,
    Io.ite_apply]
  split_ifs with hlarge hzero
  · constructor
    · rintro ⟨hfalse, -⟩
      cases hfalse
    · rintro ⟨rfl, -⟩
      exact absurd hlarge (not_lt.2 hbuf)
  · rw [hzero]
    constructor
    · rintro ⟨-, rfl, -⟩
      exact ⟨rfl, zero_le _, fun j hj => absurd hj (not_lt_zero j)⟩
    · rintro ⟨rfl, -⟩
      exact ⟨rfl, rfl, fun j hj => absurd hj (not_lt_zero j)⟩
  · have hbound := hl.bytes_lt hg
    have hlt : entrySize f.entry < 2 ^ 32 := le32_lt _ _
    obtain ⟨buf', hrun, hloaded⟩ :=
      @loadLoop_of_leads m writable env (w.bump n) hg hab _ _ l hlt hl.leads hbound buffer
    rw [hrun]
    have hbytes := hloaded.bytes
    simp only [zero_add, zero_le, forall_const] at hbytes ⊢
    constructor
    · rintro ⟨hall, hsize, hdata⟩
      have hmin : min (l.length * m.clusterSize) (entrySize f.entry) = entrySize f.entry :=
        beq_iff_eq.1 hall
      have hes : entrySize f.entry = size := hmin.symm.trans hsize
      refine ⟨hes, by omega, fun j hj => ?_⟩
      exact (hbytes j (by omega)).symm.trans (hdata j hj)
    · rintro ⟨rfl, hlen, hdata⟩
      have hmin : min (l.length * m.clusterSize) (entrySize f.entry) = entrySize f.entry := by omega
      refine ⟨beq_iff_eq.2 hmin, hmin, fun j hj => ?_⟩
      exact (hbytes j (by omega)).trans (hdata j hj)

end

variable {m : Mount}

structure SameDirs (m : Mount) (v v' : View) : Prop where
  slot : ∀ {k i}, DirCluster m v k → i < m.slots → SameButSize (v.slot k i) (v'.slot k i)
  chain : ∀ {h l}, IsDir m v h → Chain m v h l → Chain m v' h l

def Found.reread (v : View) (f : Found) : Found := ⟨v.slot f.cluster f.index, f.cluster, f.index⟩

section

variable {v v' : View}

theorem findInClusters_reread {name : List UInt8} {target : Option Buf} {l : List ℕ}
    (h : ∀ c ∈ l, ∀ i < m.slots, SameButSize (v.slot c i) (v'.slot c i)) :
    findInClusters m v' name target l =
      (findInClusters m v name target l).map (Found.reread v') := by
  induction l with
  | nil => rfl
  | cons c cs ih =>
    have hscan : scanEntries (v'.slot c) name target m.slots 0 .reset =
        scanEntries (v.slot c) name target m.slots 0 .reset :=
      scanEntries_congr (fun j _ hj => h c List.mem_cons_self j (by omega))
    rw [findInClusters, findInClusters, hscan]
    cases scanEntries (v.slot c) name target m.slots 0 .reset with
    | endOfDir => rfl
    | found i => rfl
    | exhausted => exact ih (fun d hd => h d (List.mem_cons_of_mem c hd))

theorem SameButSize.isDir_cluster {e e' : Buf} (h : SameButSize e e') :
    entryIsDir e' = entryIsDir e ∧ entryCluster e' = entryCluster e := by
  rcases h with rfl | ⟨-, hhead⟩
  · exact ⟨rfl, rfl⟩
  · obtain ⟨-, -, hdir, -, hcluster⟩ := entry_congr hhead
    exact ⟨hdir, hcluster⟩

variable (hg : Geometry m) (hc : Consistent m v) (hs : SameDirs m v v')
include hg hc hs

theorem resolveIn_reread {fuel h : ℕ} {path : List UInt8} (hdir : IsDir m v h) :
    resolveIn m v' fuel path h = (resolveIn m v fuel path h).map (Found.reread v') := by
  induction fuel generalizing path h with
  | zero => rfl
  | succ fuel ih =>
    obtain ⟨l, hl⟩ := hc.isDir_chain hdir
    rw [resolveIn, resolveIn]
    cases nextPathComponent path 64 with
    | tooLong => rfl
    | done => rfl
    | next component rest =>
      have hfind : findInClusters m v' component (make83Name component) (clustersOf m v' h) =
          (findInClusters m v component (make83Name component) (clustersOf m v h)).map
            (Found.reread v') := by
        rw [hl.clustersOf_eq hg, (hs.chain hdir hl).clustersOf_eq hg]
        exact findInClusters_reread (fun c hcl i hi => hs.slot ⟨h, l, hdir, hl, hcl⟩ hi)
      simp only [hfind]
      cases hf : findInClusters m v component (make83Name component) (clustersOf m v h) with
      | none => rfl
      | some f =>
        obtain ⟨hlive, he⟩ := hc.live_of_find hg hdir hf
        obtain ⟨hisDir, hcluster⟩ := (hs.slot hlive.dir hlive.lt).isDir_cluster
        rw [← he] at hisDir hcluster
        cases nextPathComponent rest 64 with
        | tooLong => rfl
        | done => rfl
        | next _ _ =>
          simp only [map_some, Found.reread, hisDir, hcluster]
          split_ifs with hd
          · rw [he] at hd ⊢
            exact ih (hlive.isDir_entry hd)
          · rfl

theorem resolvePathIn_reread (path : List UInt8) :
    resolvePathIn m v' path = (resolvePathIn m v path).map (Found.reread v') := by
  unfold resolvePathIn
  split_ifs
  · rfl
  · exact resolveIn_reread hg hc hs .root

end

section

variable {data disk disk' : Buf} {f : Found} {k : ℕ} {path : List UInt8} {l l' : List ℕ}
  (hg : Geometry m) (hc : Consistent m (viewOf m disk))
  (hf : resolvePathIn m (viewOf m disk) path = some f) (hfile : entryIsFile f.entry = true)
  (hl : Chain m (viewOf m disk) (entryCluster f.entry) l)
  (hw : Written m data disk disk' (entryCluster f.entry) l l' 0 k)
include hg hc hf hfile hl hw

theorem slot_written : (viewOf m (entryUpdated m disk' f k)).slot f.cluster f.index =
    if entrySize f.entry < k then withSize f.entry k else f.entry := by
  obtain ⟨hlive, he⟩ := hc.live_of_resolvePathIn hg hf
  refine slot_entryUpdated_self ((hw.slot_eq hlive.dir.inRange ?_ hlive.lt).trans he.symm)
  exact hw.not_dirCluster hc hlive (he ▸ hfile) (he ▸ hl) hlive.dir

theorem sameDirs_written : SameDirs m (viewOf m disk) (viewOf m (entryUpdated m disk' f k)) := by
  obtain ⟨hlive, he⟩ := hc.live_of_resolvePathIn hg hf
  have hdir : ∀ {d}, DirCluster m (viewOf m disk) d → d ∉ l' :=
    fun hd => hw.not_dirCluster hc hlive (he ▸ hfile) (he ▸ hl) hd
  constructor
  · intro d i hd hi
    by_cases hloc : (d, i) = (f.cluster, f.index)
    · cases hloc
      rw [slot_written hg hc hf hfile hl hw, ← he]
      refine .inr ⟨?_, fun j hj => ?_⟩
      · rw [he]
        exact entryIsLfn_of_usable hlive.usable
      · split_ifs
        · exact withSize_of_lt f.entry hj
        · rfl
    · refine .inl ?_
      rw [slot_entryUpdated_of_ne hlive.dir.inRange hd.inRange hlive.lt hi hloc,
        hw.slot_eq hd.inRange (hdir hd) hi]
  · intro h r hh hr
    refine hr.congr (fun c hcr => ?_)
    have hlt := (hr.inRange hcr).2
    exact (nextOf_entryUpdated hg hlt).trans (hw.next_eq c hlt (hdir ⟨h, r, hh, hr, hcr⟩))

theorem resolvePathIn_written :
    resolvePathIn m (viewOf m (entryUpdated m disk' f k)) path =
      some ⟨if entrySize f.entry < k then withSize f.entry k else f.entry, f.cluster, f.index⟩ := by
  rw [resolvePathIn_reread hg hc (sameDirs_written hg hc hf hfile hl hw), hf, map_some,
    Found.reread, slot_written hg hc hf hfile hl hw]

theorem fileHolds_written : FileHolds m (entryUpdated m disk' f k) l' k data := by
  obtain ⟨hlive, he⟩ := hc.live_of_resolvePathIn hg hf
  have hpos := hg.clusterSize_pos
  have hsize := m.clusterSize_eq
  have hcontent : ∀ j < k, ∃ e, l'[j / m.clusterSize]? = some e ∧
      disk' (m.clusterPos e + j % m.clusterSize) = data j := by
    intro j hj
    have hsplit := div_add_mod' j m.clusterSize
    obtain ⟨e, hget, hbyte⟩ := hw.content (j / m.clusterSize) (j % m.clusterSize)
      (mod_lt _ hpos) (by omega)
    rw [zero_add, hsplit] at hbyte
    exact ⟨e, hget, hbyte⟩
  refine ⟨?_, fun j hj => ?_⟩
  · rcases Nat.eq_zero_or_pos k with rfl | hk
    · exact zero_le _
    · obtain ⟨e, hget, -⟩ := hcontent (k - 1) (by omega)
      obtain ⟨hlt, -⟩ := List.getElem?_eq_some_iff.1 hget
      have := lt_mul_of_div_lt hlt hpos
      omega
  · obtain ⟨e, hget, hbyte⟩ := hcontent j hj
    have hmem : e ∈ l' := List.mem_of_getElem? hget
    have hne : e ≠ f.cluster := fun h => hw.not_dirCluster hc hlive (he ▸ hfile) (he ▸ hl)
      hlive.dir (h ▸ hmem)
    have hdisj := clusterPos_disjoint (m := m) (hw.leads.ok_of_mem hmem).1
      hlive.dir.inRange.1 hne
    have hmod := mod_lt j hpos
    have hindex := hlive.lt
    rw [chainByte, List.getD_eq_getElem?_getD, hget, getD_some, ← hbyte]
    unfold entryUpdated
    split_ifs
    · exact Buf.copyAt_of_not_mem (by omega)
    · rfl

end

section

variable {env : Env Buf} {data : Buf} {size : ℕ} (hg : Geometry m)
include hg

theorem writeLoop_readOnly (fuel c offset k : ℕ) (temp : Buf) :
    Io.ReadOnly (writeLoop (diskFs false env m) size data fuel c offset k temp) := by
  induction fuel generalizing c offset k temp with
  | zero => exact .pure k
  | succ fuel ih =>
    rw [writeLoop]
    split_ifs
    · refine .bind (.vfsReadDevice false _ _ _) (fun got => ?_)
      cases got with
      | none => exact .pure k
      | some temp =>
        refine .bind (.vfsWriteDevice _ _ _) (fun _ =>
          .bind (getNextCluster_readOnly c) (fun next => ?_))
        split_ifs
        · refine .bind (fun w => by rw [findFreeCluster_disk hg]) (fun free => ?_)
          split_ifs
          · exact .pure _
          · exact .bind (setCluster_readOnly _ _) (fun _ =>
              .bind (setCluster_readOnly _ _) (fun _ => ih _ _ _ _))
        · exact ih _ _ _ _
    · exact .pure k

omit hg in
theorem skipClusters_readOnly (n c : ℕ) : Io.ReadOnly (skipClusters (diskFs false env m) n c) := by
  induction n generalizing c with
  | zero => exact .pure _
  | succ n ih =>
    refine .bind (getNextCluster_readOnly c) (fun next => ?_)
    split_ifs
    · exact ih next
    · exact .pure none

theorem writeFile_readOnly (path : List UInt8) :
    Io.ReadOnly (writeFile (diskFs false env m) path data size) := by
  have hwrite : ∀ c, Io.ReadOnly (write (diskFs false env m) c 0 size data) := by
    intro c
    unfold write
    split_ifs
    · refine .bind (skipClusters_readOnly _ c) (fun r => ?_)
      cases r with
      | none => exact .pure 0
      | some c =>
        refine .bind (.kmallocBuf env) (fun got => ?_)
        cases got with
        | none => exact .pure 0
        | some temp => exact writeLoop_readOnly hg _ _ _ _ _
    · exact .pure 0
  refine .bind (resolvePath_readOnly path) (fun r => ?_)
  cases r with
  | none => exact .pure false
  | some f =>
    dsimp only
    split_ifs
    · refine .bind (hwrite _) (fun k => ?_)
      split_ifs
      · exact .bind (writeEntryAt_readOnly _ _ _) (fun _ => .pure _)
      · exact .pure _
    · exact .pure false

end

theorem entry_written {e : Buf} {k : ℕ} (hk : k < 2 ^ 32) :
    entryIsFile (if entrySize e < k then withSize e k else e) = entryIsFile e ∧
      entryCluster (if entrySize e < k then withSize e k else e) = entryCluster e ∧
      entrySize (if entrySize e < k then withSize e k else e) = max (entrySize e) k := by
  split_ifs with hgrew
  · obtain ⟨-, -, -, hfile, hcluster⟩ := entry_congr (fun j hj => withSize_of_lt (k := k) e hj)
    refine ⟨hfile, hcluster, ?_⟩
    rw [entrySize, withSize, le32_setLe32_self _ _ hk]
    omega
  · exact ⟨rfl, rfl, by omega⟩

/-- A write that reported success leaves a consistent volume on which the path leads to the same
file, with the data in its clusters. -/
theorem writeFile_leaves {m : Mount} {env : Env Buf} {w : World Buf} {path : List UInt8} {f : Found}
    {l : List ℕ} {data : Buf} {size : ℕ} (hg : Geometry m) (hok : ∀ n, env.kmallocOk n = true)
    (hc : Consistent m (viewOf m w.dev)) (hf : resolvePathIn m (viewOf m w.dev) path = some f)
    (hfile : entryIsFile f.entry = true) (hl : Chain m (viewOf m w.dev) (entryCluster f.entry) l)
    (hsize : size < 2 ^ 32) (hret : (writeFile (diskFs true env m) path data size w).1 = true) :
    ∃ disk' f' l', (writeFile (diskFs true env m) path data size w).2.dev = disk' ∧
      Consistent m (viewOf m disk') ∧ resolvePathIn m (viewOf m disk') path = some f' ∧
      entryIsFile f'.entry = true ∧ Chain m (viewOf m disk') (entryCluster f'.entry) l' ∧
      entrySize f'.entry = max (entrySize f.entry) size ∧ FileHolds m disk' l' size data := by
  obtain ⟨n, disk', l', k, hrun, hw, -⟩ : ∃ n disk' l' k, writeFile (diskFs true env m) path
      data size w = (_, _) ∧ Written m data w.dev disk' _ l l' 0 k ∧ _ :=
    writeFile_disk hg hok hc hf hfile hl
  rw [hrun] at hret ⊢
  obtain rfl : k = size := beq_iff_eq.1 hret
  obtain ⟨hfile', hcluster, hsize'⟩ := entry_written (e := f.entry) hsize
  refine ⟨_, _, l', rfl, consistent_writtenDisk hg hc hf hfile hl hw,
    resolvePathIn_written hg hc hf hfile hl hw, hfile'.trans hfile, ?_, hsize',
    fileHolds_written hg hc hf hfile hl hw⟩
  rw [hcluster]
  exact hw.chain hg hl

/-- After a write that reported success, a load returns the data exactly when the device has a write
function and the file was not longer than the data, or when it has none and the file already held
the data. -/
theorem load_after_write_iff (bpb : BootSector) (hacc : bpb.accepted = true)
    (hvol : bpb.belowFourGiB) (m : Mount) (hm : m = Mount.ofBootSector bpb) (writable : Bool)
    (env : Env Buf) (hok : ∀ n, env.kmallocOk n = true) (hab : ∀ n, env.abort n = false)
    (w : World Buf) (hc : Consistent m (viewOf m w.dev)) (path : List UInt8) (f : Found)
    (hf : resolvePathIn m (viewOf m w.dev) path = some f) (hfile : entryIsFile f.entry = true)
    (data : Buf) (size : ℕ) (hsize : size < 2 ^ 32)
    (hret : (writeFile (diskFs writable env m) path data size w).1 = true)
    (buffer : Buf) (bufferSize : ℕ) (hbuf : size ≤ bufferSize) :
    (loadFile (diskFs writable env m) path buffer bufferSize
      (writeFile (diskFs writable env m) path data size w).2).1.Returns size data ↔
        (writable = true ∧ entrySize f.entry ≤ size) ∨
          (writable = false ∧ entrySize f.entry = size ∧
            FileHolds m w.dev (clustersOf m (viewOf m w.dev) (entryCluster f.entry))
              size data) := by
  have hg : Geometry m := hm ▸ geometry_ofBootSector hacc hvol
  obtain ⟨hlive, he⟩ := hc.live_of_resolvePathIn hg hf
  obtain ⟨l, hl⟩ := hc.entry_chain hlive
  rw [← he] at hl
  rw [hl.clustersOf_eq hg]
  cases writable with
  | false =>
    have hdev : (writeFile (diskFs false env m) path data size w).2.dev = w.dev :=
      writeFile_readOnly hg path w
    generalize (writeFile (diskFs false env m) path data size w).2 = w' at hdev ⊢
    rw [← hdev] at hc hf hl ⊢
    rw [loadFile_returns_iff hg hok hab hc hf hfile hl hbuf]
    simp
  | true =>
    obtain ⟨disk', f', l', hdev, hc', hf', hfile', hl', hsize', hholds⟩ :=
      writeFile_leaves hg hok hc hf hfile hl hsize hret
    generalize (writeFile (diskFs true env m) path data size w).2 = w' at hdev ⊢
    rw [← hdev] at hc' hf' hl' hholds
    rw [loadFile_returns_iff hg hok hab hc' hf' hfile' hl' hbuf, hsize']
    constructor
    · rintro ⟨hmax, -⟩
      exact .inl ⟨rfl, by omega⟩
    · rintro (⟨-, hle⟩ | ⟨hfalse, -⟩)
      · exact ⟨by omega, hholds⟩
      · cases hfalse

def fileWorld : World Buf :=
  (createFile (diskFs true plainEnv smallMount) [0x41] (bootWorld (emptyVolume smallMount))).2

theorem consistent_fileWorld : Consistent smallMount (viewOf smallMount fileWorld.dev) :=
  consistent_createFile smallMount_geometry (fun _ => rfl) consistent_small [0x41]

/-- Two bytes written to the file are read back. -/
theorem load_after_write_small :
    (loadFile (diskFs true plainEnv smallMount) [0x41] (fun _ => 0) 100
      (writeFile (diskFs true plainEnv smallMount) [0x41] (fun j => UInt8.ofNat (j + 1)) 2
        fileWorld).2).1.Returns 2 (fun j => UInt8.ofNat (j + 1)) := by
  have hres : (resolvePathIn smallMount (viewOf smallMount fileWorld.dev) [0x41]).map
      (fun f => (entryIsFile f.entry, entrySize f.entry)) = some (true, 0) := by decide +kernel
  obtain ⟨f, hf, hentry⟩ := map_eq_some_iff.1 hres
  obtain ⟨hfile, hsize⟩ := Prod.mk.inj hentry
  exact (load_after_write_iff smallBootSector smallBootSector_accepted smallBootSector_belowFourGiB
    smallMount rfl true plainEnv (fun _ => rfl) (fun _ => rfl) fileWorld consistent_fileWorld [0x41]
    f hf hfile _ 2 (by norm_num) (by decide +kernel) (fun _ => 0) 100 (by norm_num)).2
    (.inl ⟨rfl, by rw [hsize]; norm_num⟩)

/-- A write of one byte to the file with two bytes reports success, and a load then returns two.
Without a write function, as for a partition, a write to the empty file reports success too, and a
load then returns nothing. -/
theorem load_after_write_fails :
    ((writeFile (diskFs true plainEnv smallMount) [0x41] (fun _ => 9) 1
      (writeFile (diskFs true plainEnv smallMount) [0x41] (fun j => UInt8.ofNat (j + 1)) 2
        fileWorld).2).1 = true ∧
    (loadFile (diskFs true plainEnv smallMount) [0x41] (fun _ => 0) 100
      (writeFile (diskFs true plainEnv smallMount) [0x41] (fun _ => 9) 1
        (writeFile (diskFs true plainEnv smallMount) [0x41] (fun j => UInt8.ofNat (j + 1)) 2
          fileWorld).2).2).1.outSize = 2) ∧
    (writeFile (diskFs false plainEnv smallMount) [0x41] (fun _ => 9) 1 fileWorld).1 = true ∧
    (loadFile (diskFs false plainEnv smallMount) [0x41] (fun _ => 0) 100
      (writeFile (diskFs false plainEnv smallMount) [0x41] (fun _ => 9) 1 fileWorld).2).1.outSize =
        0 := by
  decide +kernel

end MicroK.Fat32
