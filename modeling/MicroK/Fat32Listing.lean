import MicroK.Fat32RoundTrip
import MicroK.Fat32Matching

/-!
# Listing and asking about files on a FAT32 volume

The operations that only look at directories: listing one, getting an entry by its number, the size
of a file and whether a path is a directory. What `fat32_ls_path` prints is the list of its lines.
-/

namespace MicroK.Fat32

open SuccessorChain Nat

def modelName : List UInt8 := [0x6D, 0x6F, 0x64, 0x65, 0x6C, 0x2E, 0x6D, 0x6B, 0x6C, 0x6D]

def modelPath : List UInt8 := [0x6D, 0x6F, 0x64, 0x65, 0x6C, 0x73, 0x2F] ++ modelName

def modelStart : ℕ := 0x2000000

def modelMax : ℕ := 16 * 1024 * 1024

variable {σ : Type} (fs : Fs σ)

/-- `buffer` holds the bytes of memory from `modelStart` on. -/
def findModel (buffer : Buf) : Io σ Loaded := do
  let first ← loadFile fs modelName buffer modelMax
  if first.ok then pure first else loadFile fs modelPath first.buffer modelMax

/-- The call can change the byte `j` of the memory behind `modelStart`. -/
def Writes (w : World σ) (j : ℕ) : Prop := ∃ buffer, (findModel fs buffer w).1.buffer j ≠ buffer j

theorem burst_count_le (left c next count : ℕ) (hcount : count ≤ 64) (w : World σ) :
    (burst fs left c next count w).1.2 ≤ 64 := by
  induction left generalizing c next count w with
  | zero => exact hcount
  | succ left ih =>
    rw [burst]
    split_ifs with hgo
    · exact ih _ _ _ hgo.2.2 _
    · exact hcount

variable (hspc : fs.mount.sectorsPerCluster < 256)
include hspc

variable {j : ℕ}

/-- The load never leaves the file: the sum that is compared with the size does not wrap. -/
theorem loadLoop_outside {size : ℕ} (hsize : size ≤ modelMax) (fuel cluster t : ℕ) (ht : t ≤ size)
    (buffer : Buf) (w : World σ) (hj : size ≤ j) :
    (loadLoop fs size fuel cluster t buffer w).1.buffer j = buffer j := by
  induction fuel generalizing cluster t buffer w with
  | zero => rfl
  | succ fuel ih =>
    rw [loadLoop]
    by_cases hgo : validCluster cluster = true ∧ t < size
    · rw [if_pos hgo]
      simp only [Io.bind_apply, Io.ite_apply]
      by_cases habort : (sysAbortRequested fs.env w).1 = true
      · rw [if_pos habort]
        rfl
      · rw [if_neg habort]
        generalize getNextCluster fs cluster (sysAbortRequested fs.env w).2 = r
        have hcount := burst_count_le fs 64 cluster r.1 1 (by norm_num) r.2
        generalize burst fs 64 cluster r.1 1 r.2 = b at hcount ⊢
        have hwanted : u32 (b.1.2 * fs.mount.clusterSize) ≤ 64 * (255 * 512) := by
          refine (Nat.mod_le _ _).trans (Nat.mul_le_mul hcount ?_)
          exact Nat.mul_le_mul_right 512 (by omega)
        generalize u32 (b.1.2 * fs.mount.clusterSize) = wanted at hwanted ⊢
        have hsum : u32 (t + wanted) = t + wanted := by
          apply u32_of_lt
          unfold modelMax at hsize
          omega
        rw [hsum]
        generalize hbytes : (if size < t + wanted then size - t else wanted) = bytes
        have hle : t + bytes ≤ size := by
          rw [← hbytes]
          split_ifs <;> omega
        have hnext : u32 (t + bytes) = t + bytes := by
          apply u32_of_lt
          unfold modelMax at hsize
          omega
        rw [hnext]
        cases vfsReadDevice fs.dev (fs.mount.clusterOffset cluster) bytes (buffer.from t) b.2 with
        | mk got w' =>
          cases got with
          | none => rfl
          | some got =>
            apply (ih b.1.1 (t + bytes) hle _ w').trans
            exact Buf.copyAt_of_not_mem (.inr (hle.trans hj))
    · rw [if_neg hgo]
      rfl

theorem loadFile_outside (path : List UInt8) (buffer : Buf) (w : World σ)
    (hj : modelMax ≤ j) : (loadFile fs path buffer modelMax w).1.buffer j = buffer j := by
  simp only [loadFile, Io.bind_apply]
  cases (resolvePath fs path w).1 with
  | none => rfl
  | some found =>
    simp only [Io.ite_apply]
    split_ifs with hfile hlarge hzero
    · rfl
    · rfl
    · rfl
    · have hsize : entrySize found.entry ≤ modelMax := not_lt.mp hlarge
      exact loadLoop_outside fs hspc hsize _ _ 0 (zero_le _) buffer _ (hsize.trans hj)

theorem lt_of_writes {w : World σ} (h : Writes fs w j) : j < modelMax := by
  obtain ⟨buffer, hne⟩ := h
  by_contra hj
  have hfirst := loadFile_outside fs hspc modelName buffer w (not_lt.mp hj)
  apply hne
  simp only [findModel, Io.bind_apply, Io.ite_apply]
  split_ifs
  · exact hfirst
  · exact (loadFile_outside fs hspc modelPath _ _ (not_lt.mp hj)).trans hfirst

omit hspc

/-- A file with a proper chain is loaded, also from a volume that is not consistent elsewhere. -/
theorem loadFile_of_leads {m : Mount} {writable : Bool} {env : Env Buf} {w : World Buf}
    (hg : Geometry m) (hab : ∀ n, env.abort n = false) {path : List UInt8} {f : Found}
    (hf : (resolvePath (diskFs writable env m) path w).1 = some f)
    (hfile : entryIsFile f.entry = true) (hpos : entrySize f.entry ≠ 0) {bufferSize : ℕ}
    (hle : entrySize f.entry ≤ bufferSize) {l : List ℕ}
    (hl : Leads (viewOf m w.dev).next (InRange m) EndOfChain (entryCluster f.entry) l)
    (hlen : entrySize f.entry ≤ l.length * m.clusterSize)
      (hbound : l.length * m.clusterSize < 2 ^ 32)
    (buffer : Buf) :
    ∃ buf', (loadFile (diskFs writable env m) path buffer bufferSize w).1 =
        ⟨true, entrySize f.entry, buf'⟩ ∧
      ∀ j < entrySize f.entry, buf' j = chainByte m w.dev l j := by
  have hdev : (resolvePath (diskFs writable env m) path w).2.dev = w.dev :=
    resolvePath_readOnly path w
  generalize hw : (resolvePath (diskFs writable env m) path w).2 = w' at hdev
  rw [← hdev] at hl ⊢
  have hsize : entrySize f.entry < 2 ^ 32 := le32_lt _ _
  obtain ⟨buf', hrun, hloaded⟩ :=
    @loadLoop_of_leads m writable env w' hg hab _ _ l hsize hl hbound buffer
  rw [min_eq_right hlen] at hrun
  refine ⟨buf', ?_, fun j hj => hloaded.bytes j (zero_le j) (by omega)⟩
  simp only [loadFile, Io.bind_apply, hf, hw, hfile, Bool.not_true, Bool.false_eq_true, if_false]
  rw [if_neg (not_lt.mpr hle), if_neg hpos, hrun, beq_self_eq_true]

def modelShortName : Buf := fun j =>
  [0x4D, 0x4F, 0x44, 0x45, 0x4C, 0x7E, 0x31, 0x20, 0x4D, 0x4B, 0x4C].getD j 0

def modelLongName : Buf := fun j =>
  [0x41, 0x6D, 0, 0x6F, 0, 0x64, 0, 0x65, 0, 0x6C, 0, 0x0F, 0, lfnChecksum modelShortName,
    0x2E, 0, 0x6D, 0, 0x6B, 0, 0x6C, 0, 0x6D, 0, 0, 0, 0, 0, 0xFF, 0xFF, 0xFF, 0xFF].getD j 0

/-- Clusters of 32 KiB and a table for 640 of them. -/
def modelSector : Buf := fun i =>
  if i = 12 then 2 else if i = 13 then 64 else if i = 14 then 32 else if i = 16 then 1
  else if i = 36 then 5 else if i = 44 then 2 else if i = 66 then 0x29
  else if i = 510 then 0x55 else if i = 511 then 0xAA else 0

def modelMount : Mount := Mount.ofBootSector (BootSector.ofBytes modelSector)

/-- A root directory with one file of 16 MiB, in the clusters 3 to 514 and filled with ones. -/
def modelView : View where
  next c := if c = 2 then 0x0FFFFFFF else if c < 514 then c + 1
    else if c = 514 then 0x0FFFFFFF else 0
  slot c i :=
    if c = 2 then
      if i = 0 then modelLongName
      else if i = 1 then withSize (newEntry modelShortName 0x20 3) modelMax
      else fun _ => 0
    else fun _ => 1

def modelDisk : Buf := diskOf modelMount modelView

theorem modelSector_accepted : (BootSector.ofBytes modelSector).accepted = true := by decide

theorem modelMount_geometry : Geometry modelMount :=
  geometry_ofBootSector modelSector_accepted (by unfold BootSector.belowFourGiB; decide)

theorem resolve_modelDisk (writable : Bool) :
    ((resolvePath (diskFs writable plainEnv modelMount) modelName (bootWorld modelDisk)).1.map
      fun f => (entryIsFile f.entry, entrySize f.entry, entryCluster f.entry)) =
      some (true, modelMax, 3) := by
  cases writable <;> decide +kernel

theorem next_modelDisk {c : ℕ} (hc : c < 640) :
    (viewOf modelMount modelDisk).next c = modelView.next c := by
  apply nextOf_diskOf modelMount_geometry hc
  simp only [modelView]
  split_ifs <;> omega

theorem leads_modelDisk :
    Leads (viewOf modelMount modelDisk).next (InRange modelMount) EndOfChain 3
      (List.range' 3 512) := by
  have hmax : modelMount.maxClusters = 640 := by decide
  apply leads_range'
  · intro c hlo hhi
    exact ⟨by omega, by omega⟩
  · intro c hlo hhi
    rw [next_modelDisk (by omega)]
    simp only [modelView]
    rw [if_neg (by omega), if_pos (by omega)]
  · rw [next_modelDisk (by norm_num)]
    exact (by decide : 0x0FFFFFF8 ≤ modelView.next 514)

theorem byte_modelDisk (j : ℕ) : modelDisk (modelMount.clusterPos 3 + j) = 1 := by
  have hdata : modelMount.dataStartLba = 37 := by decide
  have hsize : modelMount.clusterSize = 32768 := by decide
  have hpos : modelMount.clusterPos 3 + j = 37 * 512 + (32768 + j) := by
    rw [Mount.clusterPos, hdata, hsize]
    omega
  have hcluster : (32768 + j) / 32768 + 2 ≠ 2 := by omega
  rw [hpos, modelDisk, diskOf, hdata, if_neg (by omega), Nat.add_sub_cancel_left, hsize]
  simp only [modelView, if_neg hcluster]

theorem writes_modelDisk (writable : Bool) (hj : j < modelMax) :
    Writes (diskFs writable plainEnv modelMount) (bootWorld modelDisk) j := by
  obtain ⟨f, hf, hentry⟩ := Option.map_eq_some_iff.mp (resolve_modelDisk writable)
  obtain ⟨hfile, hrest⟩ := Prod.mk.inj hentry
  obtain ⟨hsize, hcluster⟩ := Prod.mk.inj hrest
  have hclusters : 512 * modelMount.clusterSize = modelMax := by decide
  have hlength : (List.range' 3 512).length * modelMount.clusterSize = modelMax := by
    rw [List.length_range', hclusters]
  have hmax : modelMax < 2 ^ 32 := by decide
  have hleads : Leads (viewOf modelMount (bootWorld modelDisk).dev).next (InRange modelMount)
      EndOfChain (entryCluster f.entry) (List.range' 3 512) := by
    rw [hcluster, bootWorld_dev]
    exact leads_modelDisk
  have hpos : entrySize f.entry ≠ 0 := by
    rw [hsize]
    decide
  obtain ⟨buf', hload, hbytes⟩ := loadFile_of_leads modelMount_geometry (fun _ => rfl) hf hfile
    hpos hsize.le hleads (hsize.trans hlength.symm).le (hlength.trans_lt hmax) (fun _ => 0)
  have hbyte : buf' j = 1 := by
    rw [hbytes j (hj.trans_eq hsize.symm), bootWorld_dev, chainByte_range'
      (by norm_num) (hj.trans_eq hclusters.symm), byte_modelDisk]
  refine ⟨fun _ => 0, ?_⟩
  simp only [findModel, Io.bind_apply, hload, if_true]
  change buf' j ≠ 0
  rw [hbyte]
  decide

def displayName (e : Buf) (st : LfnState) (outSize : ℕ) : List UInt8 :=
  if lfnValidate st e ∧ lfnToUtf8 st.units outSize ≠ [] then lfnToUtf8 st.units outSize
  else formatEntryName e

structure Listed where
  name : List UInt8
  isDir : Bool
  size : ℕ

/-- The usable entries of one cluster with their names, and whether the end of the directory was
reached in it. -/
def listEntries (entry : ℕ → Buf) (outSize : ℕ) : ℕ → ℕ → LfnState → List Listed × Bool
  | 0, _, _ => ([], false)
  | left + 1, i, st =>
    if entry i 0 = 0x00 then ([], true)
    else if entryIsLfn (entry i) then
      listEntries entry outSize left (i + 1) (lfnFeed st (entry i))
    else if !entryIsUsable (entry i) then listEntries entry outSize left (i + 1) .reset
    else
      let rest := listEntries entry outSize left (i + 1) .reset
      (⟨displayName (entry i) st outSize, entryIsDir (entry i), entrySize (entry i)⟩ :: rest.1,
        rest.2)

variable {σ : Type} (fs : Fs σ)

def lsLoop : ℕ → ℕ → Buf → Io σ (List Listed)
  | 0, _, _ => pure []
  | left + 1, cluster, dirBuf =>
    if validCluster cluster then do
      match ← vfsReadDevice fs.dev (fs.mount.clusterOffset cluster) fs.mount.clusterSize dirBuf with
      | none => pure []
      | some dirBuf =>
        let listed := listEntries (entryOf dirBuf) 768 fs.mount.slots 0 .reset
        if listed.2 then pure listed.1
        else do
          let next ← getNextCluster fs cluster
          let rest ← lsLoop left next dirBuf
          pure (listed.1 ++ rest)
    else pure []

/-- What a listing prints: that there is no such directory, or a heading and a line per entry. -/
inductive Listing where
  | notFound
  | nothing
  | lines (entries : List Listed)

def lsPath (path : List UInt8) : Io σ Listing := do
  match ← resolveDirCluster fs path with
  | none => pure .notFound
  | some cluster =>
    match ← kmallocBuf fs.env with
    | none => pure .nothing
    | some dirBuf => do
      let entries ← lsLoop fs (fs.mount.maxClusters + 1) cluster dirBuf
      pure (.lines entries)

def ls : Io σ Listing := lsPath fs [0x2F]

def getSize (filename : List UInt8) : Io σ ℕ := do
  match ← resolvePath fs filename with
  | none => pure 0
  | some found => pure (if entryIsFile found.entry then entrySize found.entry else 0)

/-- With `current` entries seen so far. -/
def entryByIndexLoop (index : ℕ) : ℕ → ℕ → ℕ → Buf → Io σ (Option Listed)
  | 0, _, _, _ => pure none
  | left + 1, cluster, current, dirBuf =>
    if validCluster cluster then do
      match ← vfsReadDevice fs.dev (fs.mount.clusterOffset cluster) fs.mount.clusterSize dirBuf with
      | none => pure none
      | some dirBuf =>
        let listed := listEntries (entryOf dirBuf) 64 fs.mount.slots 0 .reset
        match listed.1[index - current]? with
        | some found => pure (some found)
        | none =>
          if listed.2 then pure none
          else do
            let next ← getNextCluster fs cluster
            entryByIndexLoop index left next (current + listed.1.length) dirBuf
    else pure none

def getEntryByIndex (path : List UInt8) (index : ℕ) : Io σ (Option Listed) := do
  match ← resolveDirCluster fs path with
  | none => pure none
  | some cluster =>
    match ← kmallocBuf fs.env with
    | none => pure none
    | some dirBuf => entryByIndexLoop fs index (fs.mount.maxClusters + 1) cluster 0 dirBuf

def pathIsDir (path : List UInt8) : Io σ Bool :=
  if path = [] ∨ path = [0x2F] ∨ path = [0x5C] then pure true
  else do
    let cluster ← resolveDirCluster fs path
    pure cluster.isSome

inductive CatOutput where
  | outOfMemory
  | notFound
  | text (bytes : List UInt8)

/-- `fat32_cat` prints the file up to its first zero byte. -/
def cat (filename : List UInt8) : Io σ CatOutput := do
  match ← kmallocBuf fs.env with
  | none => pure .outOfMemory
  | some buffer => do
    let loaded ← loadFile fs filename buffer 4096
    if loaded.ok then
      pure (.text (((List.range loaded.outSize).map loaded.buffer).takeWhile (· != 0)))
    else pure .notFound

end MicroK.Fat32
