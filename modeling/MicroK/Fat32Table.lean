import MicroK.BlockDevice

/-!
# The allocation table on a disk

On a volume whose geometry fits the address space, `tableWord` is the entry of a cluster and
`nextOf` its low 28 bits. The three functions of the driver that touch the table read and write
exactly these entries.
-/

namespace MicroK.Fat32

open List Option Nat

structure BootSector where
  bytesPerSector : ℕ
  sectorsPerCluster : ℕ
  reservedSectors : ℕ
  fatCount : ℕ
  sectorsPerFat16 : ℕ
  sectorsPerFat32 : ℕ
  rootCluster : ℕ
  bootSignature : ℕ
  signature : ℕ

def BootSector.ofBytes (b : Buf) : BootSector where
  bytesPerSector := le16 b 11
  sectorsPerCluster := (b 13).toNat
  reservedSectors := le16 b 14
  fatCount := (b 16).toNat
  sectorsPerFat16 := le16 b 22
  sectorsPerFat32 := le32 b 36
  rootCluster := le32 b 44
  bootSignature := (b 66).toNat
  signature := le16 b 510

variable (bpb : BootSector)

/-- The checks of `fat32_probe` on the boot sector it has read. -/
def BootSector.accepted : Bool :=
  if bpb.signature ≠ 0xAA55 then false
  else if bpb.sectorsPerFat16 ≠ 0 then false
  else if bpb.bootSignature ≠ 0x28 ∧ bpb.bootSignature ≠ 0x29 then false
  else if bpb.bytesPerSector ≠ 512 then false
  else if bpb.sectorsPerCluster = 0 then false
  else if bpb.sectorsPerFat32 = 0 then false
  else if bpb.fatCount = 0 then false
  else if bpb.rootCluster < 2 then false
  else true

structure Mount where
  sectorsPerCluster : ℕ
  sectorsPerFat : ℕ
  fatStartLba : ℕ
  dataStartLba : ℕ
  rootCluster : ℕ
  maxClusters : ℕ
  deriving DecidableEq

def Mount.ofBootSector : Mount where
  sectorsPerCluster := bpb.sectorsPerCluster
  sectorsPerFat := bpb.sectorsPerFat32
  fatStartLba := bpb.reservedSectors
  dataStartLba := u32 (bpb.reservedSectors + u32 (bpb.fatCount * bpb.sectorsPerFat32))
  rootCluster := bpb.rootCluster
  maxClusters := u32 (bpb.sectorsPerFat32 * (512 / 4))

structure Fs (σ : Type) where
  dev : Device σ
  env : Env σ
  mount : Mount

variable {σ : Type}

def probe (dev : Device σ) (env : Env σ) : Io σ Bool := do
  let stack ← stackBuf env
  match ← vfsReadDevice dev 0 512 stack with
  | none => pure false
  | some bpb => pure (BootSector.ofBytes bpb).accepted

/-- `fat32_mount` reads the boot sector again. The caller has probed it before. -/
def mount (dev : Device σ) (env : Env σ) : Io σ (Option (Fs σ)) := do
  match ← kmallocBuf env with
  | none => pure none
  | some fresh =>
    match ← vfsReadDevice dev 0 512 fresh with
    | none => pure none
    | some bpb =>
      match ← kmallocBuf env with
      | none => pure none
      | some _ => pure (some ⟨dev, env, Mount.ofBootSector (BootSector.ofBytes bpb)⟩)

def Mount.clusterSize (m : Mount) : ℕ := m.sectorsPerCluster * 512

def isEoc (cluster : ℕ) : Bool := 0x0FFFFFF8 ≤ cluster

def validCluster (cluster : ℕ) : Bool := 2 ≤ cluster && !isEoc cluster

theorem validCluster_iff {c : ℕ} : validCluster c = true ↔ 2 ≤ c ∧ c < 0x0FFFFFF8 := by
  simp [validCluster, isEoc]

def Mount.clusterToLba (m : Mount) (cluster : ℕ) : ℕ :=
  u32 (m.dataStartLba + u32 (sub32 cluster 2 * m.sectorsPerCluster))

def Mount.clusterOffset (m : Mount) (cluster : ℕ) : ℕ := u32 (m.clusterToLba cluster * 512)

def Mount.fatSectorOffset (m : Mount) (cluster : ℕ) : ℕ :=
  u32 (u32 (m.fatStartLba + u32 (cluster * 4) / 512) * 512)

def Mount.fatEntryOffset (cluster : ℕ) : ℕ := u32 (cluster * 4) % 512

variable (fs : Fs σ)

/-- A read error ends the chain. -/
def getNextCluster (cluster : ℕ) : Io σ ℕ := do
  let stack ← stackBuf fs.env
  match ← vfsReadDevice fs.dev (fs.mount.fatSectorOffset cluster) 512 stack with
  | none => pure 0x0FFFFFFF
  | some sector => pure (le32 sector (Mount.fatEntryOffset cluster) &&& 0x0FFFFFFF)

/-- Keeps the four reserved high bits of the entry. -/
def setCluster (cluster value : ℕ) : Io σ Unit := do
  let stack ← stackBuf fs.env
  match ← vfsReadDevice fs.dev (fs.mount.fatSectorOffset cluster) 512 stack with
  | none => pure ()
  | some sector =>
    let current := le32 sector (Mount.fatEntryOffset cluster)
    let updated := (value &&& 0x0FFFFFFF) ||| (current &&& 0xF0000000)
    vfsWriteDevice fs.dev (fs.mount.fatSectorOffset cluster) 512
      (sector.setLe32 (Mount.fatEntryOffset cluster) updated)

/-- The first entry of sector `s` of the table that is free. -/
def freeEntryIn (sector : Buf) (s : ℕ) : Option ℕ :=
  (List.range (512 / 4)).find? fun e =>
    2 ≤ u32 (s * (512 / 4) + e) && le32 sector (4 * e) &&& 0x0FFFFFFF == 0

/-- The outer loop of `fat32_find_free_cluster`, with `left` sectors to go. The result of the
read is not looked at. -/
def findFreeLoop : ℕ → ℕ → Buf → Io σ ℕ
  | 0, _, _ => pure 0xFFFFFFFF
  | left + 1, s, sector => do
    let got ← vfsReadDevice fs.dev (u32 (u32 (fs.mount.fatStartLba + s) * 512)) 512 sector
    let sector := got.getD sector
    match freeEntryIn sector s with
    | some e => pure (u32 (s * (512 / 4) + e))
    | none => findFreeLoop left (s + 1) sector

def findFreeCluster : Io σ ℕ := do
  let stack ← stackBuf fs.env
  findFreeLoop fs fs.mount.sectorsPerFat 0 stack

/-- The table lies in front of the data area, describes `maxClusters` clusters, and the last of
them ends below 4 GiB. -/
structure Geometry (m : Mount) : Prop where
  spc_pos : 0 < m.sectorsPerCluster
  table_le_data : m.fatStartLba + m.sectorsPerFat ≤ m.dataStartLba
  max_eq : m.maxClusters = m.sectorsPerFat * 128
  max_pos : 0 < m.sectorsPerFat
  end_lt : (m.dataStartLba + (m.maxClusters - 2) * m.sectorsPerCluster) * 512 < 2 ^ 32

/-- The volume that a boot sector describes, every table entry backed by a data cluster, is
smaller than 4 GiB. -/
def BootSector.belowFourGiB : Prop :=
  (bpb.reservedSectors + bpb.fatCount * bpb.sectorsPerFat32 +
    (bpb.sectorsPerFat32 * 128 - 2) * bpb.sectorsPerCluster) * 512 < 2 ^ 32

theorem geometry_ofBootSector {bpb : BootSector} (hacc : bpb.accepted = true)
    (hsize : bpb.belowFourGiB) : Geometry (Mount.ofBootSector bpb) := by
  unfold BootSector.accepted at hacc
  split_ifs at hacc with h1 h2 h3 h4 h5 h6 h7 h8
  have hspc : 0 < bpb.sectorsPerCluster := pos_of_ne_zero h5
  have hspf : 0 < bpb.sectorsPerFat32 := pos_of_ne_zero h6
  have hcopies : bpb.sectorsPerFat32 ≤ bpb.fatCount * bpb.sectorsPerFat32 :=
    Nat.le_mul_of_pos_left _ (Nat.pos_of_ne_zero h7)
  unfold BootSector.belowFourGiB at hsize
  have hdata : u32 (bpb.reservedSectors + u32 (bpb.fatCount * bpb.sectorsPerFat32)) =
      bpb.reservedSectors + bpb.fatCount * bpb.sectorsPerFat32 := by
    rw [u32_of_lt (n := bpb.fatCount * bpb.sectorsPerFat32) (by omega), u32_of_lt (by omega)]
  have hmax : u32 (bpb.sectorsPerFat32 * (512 / 4)) = bpb.sectorsPerFat32 * 128 := by
    rw [u32_of_lt (by omega)]
  constructor
  · exact hspc
  · change bpb.reservedSectors + bpb.sectorsPerFat32 ≤ u32 _
    omega
  · exact hmax
  · exact hspf
  · simp only [Mount.ofBootSector, hdata, hmax]
    exact hsize

def Mount.tablePos (m : Mount) (cluster : ℕ) : ℕ := m.fatStartLba * 512 + 4 * cluster

def tableWord (m : Mount) (disk : Buf) (cluster : ℕ) : ℕ := le32 disk (m.tablePos cluster)

def nextOf (m : Mount) (disk : Buf) (cluster : ℕ) : ℕ := tableWord m disk cluster &&& 0x0FFFFFFF

def tableSet (m : Mount) (disk : Buf) (cluster value : ℕ) : Buf :=
  disk.setLe32 (m.tablePos cluster)
    ((value &&& 0x0FFFFFFF) ||| (tableWord m disk cluster &&& 0xF0000000))

def isFreeCluster (m : Mount) (disk : Buf) (c : ℕ) : Bool := 2 ≤ c && nextOf m disk c == 0

def firstFree (m : Mount) (disk : Buf) : Option ℕ :=
  (List.range m.maxClusters).find? (isFreeCluster m disk)

section

variable {m : Mount} (hg : Geometry m)
include hg

theorem Geometry.data_lt : m.dataStartLba * 512 < 2 ^ 32 :=
  (mul_le_mul_right 512 (le_add_right _ _)).trans_lt hg.end_lt

theorem Geometry.max_lt : m.maxClusters < 2 ^ 25 := by
  have h2 := hg.table_le_data
  have h3 := hg.max_eq
  have h5 := hg.end_lt
  have h6 : m.maxClusters - 2 ≤ (m.maxClusters - 2) * m.sectorsPerCluster :=
    Nat.le_mul_of_pos_right _ hg.spc_pos
  omega

theorem Geometry.table_end {c : ℕ} (hc : c < m.maxClusters) :
    m.tablePos c + 4 ≤ m.dataStartLba * 512 := by
  have h1 := hg.table_le_data
  have h2 := hg.max_eq
  unfold Mount.tablePos
  omega

theorem Geometry.tableSector {c : ℕ} (hc : c < m.maxClusters) :
    m.fatSectorOffset c = m.fatStartLba * 512 + c / 128 * 512 ∧
      Mount.fatEntryOffset c = 4 * (c % 128) ∧ m.fatSectorOffset c + 512 ≤ 2 ^ 32 := by
  have h1 := hg.data_lt
  have h2 := hg.table_le_data
  have h3 := hg.max_eq
  have hmul : u32 (c * 4) = c * 4 := u32_of_lt (by omega)
  have hdiv : c * 4 / 512 = c / 128 := by omega
  have hlt : (m.fatStartLba + c / 128) * 512 + 512 ≤ m.dataStartLba * 512 := by omega
  have hsec : u32 (u32 (m.fatStartLba + c * 4 / 512) * 512) =
      m.fatStartLba * 512 + c / 128 * 512 := by
    have hlba : u32 (m.fatStartLba + c / 128) = m.fatStartLba + c / 128 := u32_of_lt (by linarith)
    rw [hdiv, hlba, add_mul]
    exact u32_of_lt (by linarith)
  refine ⟨?_, ?_, ?_⟩
  · rw [Mount.fatSectorOffset, hmul, hsec]
  · rw [Mount.fatEntryOffset, hmul]
    omega
  · rw [Mount.fatSectorOffset, hmul, hsec]
    linarith

end

theorem mask_low (v w : ℕ) :
    ((v &&& 0x0FFFFFFF) ||| (w &&& 0xF0000000)) &&& 0x0FFFFFFF = v &&& 0x0FFFFFFF := by
  have hmask : 0xF0000000 &&& 0x0FFFFFFF = 0 := by decide
  rw [Nat.and_or_distrib_right, Nat.land_assoc, Nat.land_assoc, Nat.and_self, hmask, Nat.and_zero,
    or_zero]

theorem mask_lt (v w : ℕ) : ((v &&& 0x0FFFFFFF) ||| (w &&& 0xF0000000)) < 2 ^ 32 :=
  or_lt_two_pow (and_lt_two_pow v (by norm_num)) (and_lt_two_pow w (by norm_num))

theorem nextOf_tableSet (m : Mount) (disk : Buf) (c v d : ℕ) :
    nextOf m (tableSet m disk c v) d =
      if d = c then v &&& 0x0FFFFFFF else nextOf m disk d := by
  unfold nextOf tableWord tableSet
  split_ifs with hdc
  · rw [hdc, le32_setLe32_self _ _ (mask_lt _ _), mask_low]
  · rw [le32_setLe32_of_disjoint]
    unfold Mount.tablePos
    omega

theorem tableSet_of_not_mem {m : Mount} {disk : Buf} {c v j : ℕ}
    (hj : j < m.tablePos c ∨ m.tablePos c + 4 ≤ j) : tableSet m disk c v j = disk j := by
  rw [tableSet, Buf.setLe32, Buf.copyAt_of_not_mem hj]

variable (writable : Bool) (env : Env Buf)

def diskFs (m : Mount) : Fs Buf := ⟨diskDevice writable, env, m⟩

@[simp] theorem diskFs_dev (m : Mount) :
    (diskFs writable env m).dev = diskDevice writable := rfl

@[simp] theorem diskFs_env (m : Mount) :
    (diskFs writable env m).env = env := rfl

@[simp] theorem diskFs_mount (m : Mount) :
    (diskFs writable env m).mount = m := rfl

section

variable {writable : Bool} {env : Env Buf} {m : Mount} {w : World Buf} {c v : ℕ}

theorem entry_in_sector (m : Mount) (c : ℕ) :
    m.fatSectorOffset c % 512 = 0 ∧ m.fatSectorOffset c + 512 ≤ 2 ^ 32 ∧
      Mount.fatEntryOffset c % 4 = 0 ∧ Mount.fatEntryOffset c + 4 ≤ 512 := by
  unfold Mount.fatSectorOffset Mount.fatEntryOffset u32
  omega

def Mount.entryPos (m : Mount) (c : ℕ) : ℕ := m.fatSectorOffset c + Mount.fatEntryOffset c

theorem Geometry.entryPos_eq (hg : Geometry m) (hc : c < m.maxClusters) :
    m.entryPos c = m.tablePos c := by
  obtain ⟨hsec, hent, -⟩ := hg.tableSector hc
  rw [Mount.entryPos, hsec, hent, Mount.tablePos]
  omega

theorem le32_sector (stack : Buf) :
    le32 (stack.copyAt 0 512 (w.dev.from (m.fatSectorOffset c))) (Mount.fatEntryOffset c) =
      le32 w.dev (m.entryPos c) := by
  obtain ⟨-, -, -, hent⟩ := entry_in_sector m c
  refine le32_congr (fun j hj => ?_)
  rw [Buf.copyAt_of_mem (zero_le _) (by omega), Buf.from, Mount.entryPos]
  exact congrArg w.dev (by omega)

theorem getNextCluster_at (c : ℕ) : getNextCluster (diskFs writable env m) c w =
    (le32 w.dev (m.entryPos c) &&& 0x0FFFFFFF, w) := by
  obtain ⟨-, hend, -, -⟩ := entry_in_sector m c
  simp only [getNextCluster, diskFs_dev, diskFs_env, diskFs_mount, Io.bind_apply, stackBuf,
    vfsReadDevice_disk hend, Io.pure_apply, le32_sector]

theorem setCluster_at (c v : ℕ) : setCluster (diskFs writable env m) c v w =
    ((), w.write writable (w.dev.setLe32 (m.entryPos c)
      ((v &&& 0x0FFFFFFF) ||| (le32 w.dev (m.entryPos c) &&& 0xF0000000)))) := by
  obtain ⟨-, hend, -, hent⟩ := entry_in_sector m c
  simp only [setCluster, diskFs_dev, diskFs_env, diskFs_mount, Io.bind_apply, stackBuf,
    vfsReadDevice_disk hend, vfsWriteDevice_disk hend, le32_sector]
  rw [Buf.setLe32, Buf.copyAt_patch _ _ _ hent, Buf.setLe32, Mount.entryPos]

variable (hg : Geometry m)
include hg

theorem getNextCluster_disk (hc : c < m.maxClusters) :
    getNextCluster (diskFs writable env m) c w = (nextOf m w.dev c, w) := by
  rw [getNextCluster_at, hg.entryPos_eq hc]
  rfl

theorem setCluster_disk (hc : c < m.maxClusters) : setCluster (diskFs writable env m) c v w =
      ((), w.write writable (tableSet m w.dev c v)) := by
  rw [setCluster_at, hg.entryPos_eq hc]
  rfl

theorem freeEntryIn_disk {s : ℕ} (hs : s < m.sectorsPerFat) (stack : Buf) :
    (freeEntryIn (stack.copyAt 0 512 (w.dev.from ((m.fatStartLba + s) * 512))) s).map
        (fun e => s * 128 + e) = (List.range' (s * 128) 128).find? (isFreeCluster m w.dev) := by
  have hmax := hg.max_lt
  have heq := hg.max_eq
  rw [range'_eq_map_range, find?_map, freeEntryIn]
  congr 1
  refine find?_congr (fun e he => ?_)
  have he' : e < 128 := mem_range.1 he
  have hlt : s * 128 + e < 2 ^ 32 := by omega
  have hword : le32 (stack.copyAt 0 512 (w.dev.from ((m.fatStartLba + s) * 512))) (4 * e) =
      tableWord m w.dev (s * 128 + e) := by
    refine le32_congr (fun j hj => ?_)
    rw [Buf.copyAt_of_mem (zero_le _) (by omega), Buf.from, Mount.tablePos]
    exact congrArg w.dev (by omega)
  simp only [Function.comp_apply, isFreeCluster, nextOf, hword, u32_of_lt hlt]

theorem findFreeLoop_disk {left s : ℕ} (hs : s + left = m.sectorsPerFat) (stack : Buf) :
    findFreeLoop (diskFs writable env m) left s stack w =
      (((List.range' (s * 128) (left * 128)).find? (isFreeCluster m w.dev)).getD 0xFFFFFFFF,
        w) := by
  induction left generalizing s stack with
  | zero => rfl
  | succ left ih =>
    have hdata := hg.data_lt
    have htable := hg.table_le_data
    have hsec : (m.fatStartLba + s) * 512 + 512 ≤ m.dataStartLba * 512 := by omega
    have hoff : u32 (u32 (m.fatStartLba + s) * 512) = (m.fatStartLba + s) * 512 := by
      have hlba : u32 (m.fatStartLba + s) = m.fatStartLba + s := u32_of_lt (by linarith)
      rw [hlba]
      exact u32_of_lt (by linarith)
    have hend : (m.fatStartLba + s) * 512 + 512 ≤ 2 ^ 32 := hsec.trans hdata.le
    have hsplit : List.range' (s * 128) ((left + 1) * 128) =
        List.range' (s * 128) 128 ++ List.range' ((s + 1) * 128) (left * 128) := by
      rw [succ_mul s, range'_append_1, succ_mul left, add_comm (left * 128)]
    have hfree := freeEntryIn_disk (w := w) hg (s := s) (by omega) stack
    simp only [findFreeLoop, diskFs_dev, diskFs_mount, Io.bind_apply, hoff, vfsReadDevice_disk hend,
      getD_some]
    rw [hsplit, find?_append, ← hfree]
    cases hcase : freeEntryIn (stack.copyAt 0 512 (w.dev.from ((m.fatStartLba + s) * 512))) s with
    | some e =>
      have he : e < 128 := mem_range.1 (mem_of_find?_eq_some hcase)
      have hlt : u32 (s * (512 / 4) + e) = s * 128 + e := u32_of_lt (by omega)
      simp only [Io.pure_apply, hlt, map_some, some_or, getD_some]
    | none =>
      exact ih (by omega) _

theorem findFreeCluster_disk :
    findFreeCluster (diskFs writable env m) w = ((firstFree m w.dev).getD 0xFFFFFFFF, w) := by
  have hloop : findFreeLoop (diskFs writable env m) m.sectorsPerFat 0 (env.stackBytes w) w = _ :=
    findFreeLoop_disk hg (zero_add _) _
  rw [zero_mul, ← hg.max_eq, ← range_eq_range'] at hloop
  exact hloop

omit hg

theorem firstFree_spec {disk : Buf} (h : firstFree m disk = some c) :
    2 ≤ c ∧ c < m.maxClusters ∧ nextOf m disk c = 0 := by
  have hmem := mem_range.1 (mem_of_find?_eq_some h)
  have hfree := find?_some h
  simp only [isFreeCluster, Bool.and_eq_true, decide_eq_true_eq, beq_iff_eq] at hfree
  exact ⟨hfree.1, hmem, hfree.2⟩

end

end MicroK.Fat32
