import MicroK.Fat32Table

/-!
# FAT32 files

Reading, writing, creating and deleting. A write goes through the chain of the file and links
new clusters at its end; the directory entry is updated only when the file has grown. Creating,
making a directory and deleting change the allocation table first and the directory last.
-/

namespace MicroK.Fat32

def upper (c : UInt8) : UInt8 := if 0x61 ≤ c ∧ c ≤ 0x7A then c - 0x20 else c

def strEqualCi : List UInt8 → List UInt8 → Bool
  | [], [] => true
  | a :: as, b :: bs => if upper a == upper b then strEqualCi as bs else false
  | _, _ => false

def isSeparator (c : UInt8) : Bool := c == 0x2F || c == 0x5C

structure NameState where
  out : Buf
  namePos : ℕ
  extPos : ℕ
  inExt : Bool

def NameState.start : NameState := ⟨fun _ => 0x20, 0, 8, false⟩

def make83Loop : NameState → List UInt8 → Option NameState
  | st, [] => some st
  | st, c :: cs =>
    if isSeparator c then make83Loop NameState.start cs
    else if c = 0x2E then make83Loop { st with inExt := true } cs
    else if c = 0x20 then make83Loop st cs
    else if !st.inExt then
      if 8 ≤ st.namePos then none
      else make83Loop
        { st with out := Function.update st.out st.namePos (upper c), namePos := st.namePos + 1 } cs
    else if 11 ≤ st.extPos then none
    else make83Loop
      { st with out := Function.update st.out st.extPos (upper c), extPos := st.extPos + 1 } cs

def make83Name (filename : List UInt8) : Option Buf :=
  if filename = [] then none
  else match make83Loop NameState.start filename with
    | none => none
    | some st => if 0 < st.namePos then some st.out else none

def entryOf (buf : Buf) (i : ℕ) : Buf := fun j => if j < 32 then buf (32 * i + j) else 0

section

variable (e : Buf)

def entryAttr : ℕ := (e 11).toNat

def entryCluster : ℕ := le16 e 26 + 65536 * le16 e 20

def entrySize : ℕ := le32 e 28

def entryIsLfn : Bool := entryAttr e &&& 0x0F == 0x0F

def entryIsUsable : Bool :=
  if e 0 = 0x00 then false
  else if e 0 = 0xE5 then false
  else if entryIsLfn e then false
  else if entryAttr e &&& 0x08 ≠ 0 then false
  else true

def entryIsFile : Bool := entryIsUsable e && entryAttr e &&& 0x10 == 0

def entryIsDir : Bool := entryIsUsable e && entryAttr e &&& 0x10 != 0

end

/-- `memcmp` of the short name with a blank-padded one. -/
def sameName (e target : Buf) : Bool := (List.range 11).all fun j => e j == target j

structure LfnState where
  units : ℕ → ℕ
  checksum : UInt8
  active : Bool
  valid : Bool

def lfnMaxUnits : ℕ := 260

def LfnState.reset : LfnState := ⟨fun _ => 0, 0, false, false⟩

def lfnChecksum (shortName : Buf) : UInt8 :=
  (List.range 11).foldl
    (fun sum i => (((sum &&& 1) <<< 7) ||| ((sum &&& 0xFE) >>> 1)) + shortName i) 0

/-- The thirteen code units of a long-name entry, which sit at three places. -/
def lfnChar (e : Buf) (i : ℕ) : ℕ :=
  if i < 5 then le16 e (1 + 2 * i)
  else if i < 11 then le16 e (14 + 2 * (i - 5))
  else le16 e (28 + 2 * (i - 11))

def lfnStore (st : LfnState) (e : Buf) (pos : ℕ) : LfnState :=
  { st with
    units := fun k =>
      if pos ≤ k ∧ k < pos + 13 ∧ k < lfnMaxUnits - 1 ∧ lfnChar e (k - pos) ≠ 0x0000 ∧
          lfnChar e (k - pos) ≠ 0xFFFF then lfnChar e (k - pos)
      else st.units k }

def lfnFeed (st : LfnState) (e : Buf) : LfnState :=
  let order := (e 0 &&& 0x1F).toNat
  if order = 0 ∨ 20 < order then { st with active := false }
  else if e 0 &&& 0x40 ≠ 0 then
    lfnStore { LfnState.reset with active := true, valid := true, checksum := e 13 } e
      ((order - 1) * 13)
  else if !st.active then st
  else if e 13 ≠ st.checksum then lfnStore { st with valid := false } e ((order - 1) * 13)
  else lfnStore st e ((order - 1) * 13)

def lfnValidate (st : LfnState) (shortName : Buf) : Bool :=
  st.active && st.valid && lfnChecksum shortName == st.checksum

def utf8Unit (cp : ℕ) : List UInt8 :=
  if cp < 0x80 then [UInt8.ofNat cp]
  else if cp < 0x800 then [UInt8.ofNat (0xC0 ||| cp >>> 6), UInt8.ofNat (0x80 ||| (cp &&& 0x3F))]
  else
    [UInt8.ofNat (0xE0 ||| cp >>> 12), UInt8.ofNat (0x80 ||| (cp >>> 6 &&& 0x3F)),
      UInt8.ofNat (0x80 ||| (cp &&& 0x3F))]

/-- The loop of `fat32_lfn_to_utf8` with `left` units to go and `opos` bytes written. -/
def lfnToUtf8Loop (units : ℕ → ℕ) (outSize : ℕ) : ℕ → ℕ → ℕ → List UInt8
  | 0, _, _ => []
  | left + 1, i, opos =>
    if units i ≠ 0 ∧ opos + 4 < outSize then
      utf8Unit (units i) ++
        lfnToUtf8Loop units outSize left (i + 1) (opos + (utf8Unit (units i)).length)
    else []

def lfnToUtf8 (units : ℕ → ℕ) (outSize : ℕ) : List UInt8 :=
  lfnToUtf8Loop units outSize lfnMaxUnits 0 0

inductive DirScan where
  | endOfDir
  | found (index : ℕ)
  | exhausted

def entryMatches (name : List UInt8) (target : Option Buf) (st : LfnState) (e : Buf) : Bool :=
  (lfnValidate st e && strEqualCi (lfnToUtf8 st.units 768) name) ||
    (match target with
      | none => false
      | some short => sameName e short)

def scanEntries (entry : ℕ → Buf) (name : List UInt8) (target : Option Buf) :
    ℕ → ℕ → LfnState → DirScan
  | 0, _, _ => .exhausted
  | left + 1, i, st =>
    if entry i 0 = 0x00 then .endOfDir
    else if entryIsLfn (entry i) then scanEntries entry name target left (i + 1)
      (lfnFeed st (entry i))
    else if entry i 0 = 0xE5 then scanEntries entry name target left (i + 1) .reset
    else if !entryIsUsable (entry i) then scanEntries entry name target left (i + 1) .reset
    else if entryMatches name target st (entry i) then .found i
    else scanEntries entry name target left (i + 1) .reset

variable {σ : Type} (fs : Fs σ)

def Mount.slots (m : Mount) : ℕ := m.clusterSize / 32

structure Found where
  entry : Buf
  cluster : ℕ
  index : ℕ

def findEntryLoop (name : List UInt8) (target : Option Buf) : ℕ → ℕ → Buf → Io σ (Option Found)
  | 0, _, _ => pure none
  | left + 1, cluster, dirBuf =>
    if validCluster cluster then do
      match ← vfsReadDevice fs.dev (fs.mount.clusterOffset cluster) fs.mount.clusterSize dirBuf with
      | none => pure none
      | some dirBuf =>
        match scanEntries (entryOf dirBuf) name target fs.mount.slots 0 .reset with
        | .endOfDir => pure none
        | .found i => pure (some ⟨entryOf dirBuf i, cluster, i⟩)
        | .exhausted => do
          let next ← getNextCluster fs cluster
          findEntryLoop name target left next dirBuf
    else pure none

def findEntryInDir (dirCluster : ℕ) (name : List UInt8) : Io σ (Option Found) := do
  match ← kmallocBuf fs.env with
  | none => pure none
  | some dirBuf =>
    findEntryLoop fs name (make83Name name) (fs.mount.maxClusters + 1) dirCluster dirBuf

def writeEntryAt (dirCluster index : ℕ) (entry : Buf) : Io σ Bool := do
  match ← kmallocBuf fs.env with
  | none => pure false
  | some dirBuf => do
    let offset := fs.mount.clusterOffset dirCluster
    let got ← vfsReadDevice fs.dev offset fs.mount.clusterSize dirBuf
    vfsWriteDevice fs.dev offset fs.mount.clusterSize
      ((got.getD dirBuf).copyAt (32 * index) 32 entry)
    pure true

def isFreeSlot (e : Buf) : Bool := e 0 == 0x00 || e 0 == 0xE5

def freeSlotIn (entry : ℕ → Buf) (slots : ℕ) : Option ℕ :=
  (List.range slots).find? fun i => isFreeSlot (entry i)

def findFreeSlotLoop : ℕ → ℕ → Buf → Io σ (Option ℕ)
  | 0, _, _ => pure none
  | left + 1, cluster, dirBuf =>
    if validCluster cluster then do
      let got ← vfsReadDevice fs.dev (fs.mount.clusterOffset cluster) fs.mount.clusterSize dirBuf
      let dirBuf := got.getD dirBuf
      match freeSlotIn (entryOf dirBuf) fs.mount.slots with
      | some i => pure (some i)
      | none => do
        let next ← getNextCluster fs cluster
        if 0x0FFFFFF8 ≤ next then pure none else findFreeSlotLoop left next dirBuf
    else pure none

/-- The index of a free slot, without the cluster in which it was seen. -/
def findFreeSlotInDir (dirCluster : ℕ) : Io σ (Option ℕ) := do
  match ← kmallocBuf fs.env with
  | none => pure none
  | some dirBuf => findFreeSlotLoop fs (fs.mount.maxClusters + 1) dirCluster dirBuf

inductive Component where
  | tooLong
  | done
  | next (component rest : List UInt8)

def nextPathComponent (path : List UInt8) (componentSize : ℕ) : Component :=
  let path := path.dropWhile isSeparator
  let component := path.takeWhile fun c => !isSeparator c
  if path = [] then .done
  else if componentSize ≤ component.length then .tooLong
  else .next component (path.dropWhile fun c => !isSeparator c)

def resolveLoop : ℕ → List UInt8 → ℕ → Io σ (Option Found)
  | 0, _, _ => pure none
  | fuel + 1, path, currentCluster =>
    match nextPathComponent path 64 with
    | .tooLong => pure none
    | .done => pure none
    | .next component rest => do
      match ← findEntryInDir fs currentCluster component with
      | none => pure none
      | some found =>
        match nextPathComponent rest 64 with
        | .tooLong => pure none
        | .done => pure (some found)
        | .next _ _ =>
          if entryIsDir found.entry then resolveLoop fuel rest (entryCluster found.entry)
          else pure none

/-- Every round consumes at least one byte of the path. -/
def resolvePath (path : List UInt8) : Io σ (Option Found) :=
  if path = [] then pure none else resolveLoop fs (path.length + 1) path fs.mount.rootCluster

def resolveDirCluster (path : List UInt8) : Io σ (Option ℕ) :=
  if path = [] ∨ path = [0x2F] ∨ path = [0x5C] then pure (some fs.mount.rootCluster)
  else do
    match ← resolvePath fs path with
    | none => pure none
    | some found =>
      if entryIsDir found.entry then pure (some (entryCluster found.entry)) else pure none

/-- The number of bytes in front of the last occurrence of a character, as `strrchr` finds it. -/
def strrchr (path : List UInt8) (c : UInt8) : Option ℕ :=
  (List.range path.length).reverse.find? fun i => path.getD i 0 == c

/-- The part of a path in front of its last separator: slashes are looked for first, and
backslashes only when there is no slash. -/
def lastSlash (path : List UInt8) : Option ℕ :=
  match strrchr path 0x2F with
  | some len => some len
  | none => strrchr path 0x5C

/-- The directory in which `fat32_create_file` and `fat32_mkdir` put a new entry. -/
def parentCluster (path : List UInt8) : Io σ (Option ℕ) :=
  match lastSlash path with
  | none => pure (some fs.mount.rootCluster)
  | some len =>
    if 128 ≤ len then pure none
    else if len = 0 then resolveDirCluster fs [0x2F]
    else resolveDirCluster fs (path.take len)

variable {σ : Type} (fs : Fs σ)

def skipClusters : ℕ → ℕ → Io σ (Option ℕ)
  | 0, cluster => pure (some cluster)
  | n + 1, cluster => do
    let next ← getNextCluster fs cluster
    if validCluster next then skipClusters n next else pure none

def readLoop (size : ℕ) : ℕ → ℕ → ℕ → ℕ → Buf → Buf → Io σ (ℕ × Buf)
  | 0, _, _, bytesRead, _, buffer => pure (bytesRead, buffer)
  | fuel + 1, cluster, offsetInCluster, bytesRead, temp, buffer =>
    if bytesRead < size ∧ validCluster cluster then do
      match ← vfsReadDevice fs.dev (fs.mount.clusterOffset cluster) fs.mount.clusterSize temp with
      | none => pure (bytesRead, buffer)
      | some temp => do
        let chunk := min (fs.mount.clusterSize - offsetInCluster) (size - bytesRead)
        let buffer := buffer.copyAt bytesRead chunk (temp.from offsetInCluster)
        let next ← getNextCluster fs cluster
        readLoop size fuel next 0 (bytesRead + chunk) temp buffer
    else pure (bytesRead, buffer)

/-- `fat32_read` of a node with the given first cluster. Every round reads at least one byte. -/
def read (firstCluster offset size : ℕ) (buffer : Buf) : Io σ (ℕ × Buf) :=
  if validCluster firstCluster then do
    match ← skipClusters fs (offset / fs.mount.clusterSize) firstCluster with
    | none => pure (0, buffer)
    | some cluster =>
      match ← kmallocBuf fs.env with
      | none => pure (0, buffer)
      | some temp =>
        readLoop fs size size cluster (offset % fs.mount.clusterSize) 0 temp buffer
  else pure (0, buffer)

def writeLoop (size : ℕ) (data : Buf) : ℕ → ℕ → ℕ → ℕ → Buf → Io σ ℕ
  | 0, _, _, bytesWritten, _ => pure bytesWritten
  | fuel + 1, cluster, offsetInCluster, bytesWritten, temp =>
    if bytesWritten < size ∧ validCluster cluster then do
      let offset := fs.mount.clusterOffset cluster
      match ← vfsReadDevice fs.dev offset fs.mount.clusterSize temp with
      | none => pure bytesWritten
      | some temp => do
        let chunk := min (fs.mount.clusterSize - offsetInCluster) (size - bytesWritten)
        let temp := temp.copyAt offsetInCluster chunk (data.from bytesWritten)
        vfsWriteDevice fs.dev offset fs.mount.clusterSize temp
        let bytesWritten := bytesWritten + chunk
        let next ← getNextCluster fs cluster
        if 0x0FFFFFF8 ≤ next ∧ bytesWritten < size then do
          let free ← findFreeCluster fs
          if free = 0xFFFFFFFF then pure bytesWritten
          else do
            setCluster fs cluster free
            setCluster fs free 0x0FFFFFFF
            writeLoop size data fuel free 0 bytesWritten temp
        else writeLoop size data fuel next 0 bytesWritten temp
    else pure bytesWritten

/-- `fat32_write` of a node with the given first cluster. Every round writes at least one byte. -/
def write (firstCluster offset size : ℕ) (data : Buf) : Io σ ℕ :=
  if validCluster firstCluster then do
    match ← skipClusters fs (offset / fs.mount.clusterSize) firstCluster with
    | none => pure 0
    | some cluster =>
      match ← kmallocBuf fs.env with
      | none => pure 0
      | some temp => writeLoop fs size data size cluster (offset % fs.mount.clusterSize) 0 temp
  else pure 0

def withSize (e : Buf) (size : ℕ) : Buf := e.setLe32 28 size

def writeFile (filename : List UInt8) (buffer : Buf) (size : ℕ) : Io σ Bool := do
  match ← resolvePath fs filename with
  | none => pure false
  | some found =>
    if entryIsFile found.entry then do
      let written ← write fs (entryCluster found.entry) 0 size buffer
      if entrySize found.entry < written then do
        let _ ← writeEntryAt fs found.cluster found.index (withSize found.entry written)
        pure (written == size)
      else pure (written == size)
    else pure false

/-- The clusters after `cluster` that follow it on the disk, up to 64 in all. -/
def burst : ℕ → ℕ → ℕ → ℕ → Io σ (ℕ × ℕ)
  | 0, _, next, count => pure (next, count)
  | left + 1, cluster, next, count =>
    if validCluster next ∧ next = cluster + 1 ∧ count < 64 then do
      let after ← getNextCluster fs next
      burst left next after (count + 1)
    else pure (next, count)

structure Loaded where
  ok : Bool
  outSize : ℕ
  buffer : Buf

/-- The loop of `fat32_load_file`. Every round adds at least one byte to the total until it wraps;
a run that wraps may go on for ever and is followed for `size` rounds. -/
def loadLoop (size : ℕ) : ℕ → ℕ → ℕ → Buf → Io σ Loaded
  | 0, _, totalRead, buffer => pure ⟨totalRead == size, totalRead, buffer⟩
  | fuel + 1, cluster, totalRead, buffer =>
    if validCluster cluster ∧ totalRead < size then do
      if ← sysAbortRequested fs.env then pure ⟨false, 0, buffer⟩
      else do
        let next ← getNextCluster fs cluster
        let (next, count) ← burst fs 64 cluster next 1
        let wanted := u32 (count * fs.mount.clusterSize)
        let bytes := if size < u32 (totalRead + wanted) then size - totalRead else wanted
        match ← vfsReadDevice fs.dev (fs.mount.clusterOffset cluster) bytes
            (buffer.from totalRead) with
        | none => pure ⟨totalRead == size, totalRead, buffer⟩
        | some got =>
          loadLoop size fuel next (u32 (totalRead + bytes)) (buffer.copyAt totalRead bytes got)
    else pure ⟨totalRead == size, totalRead, buffer⟩

def loadFile (filename : List UInt8) (buffer : Buf) (bufferSize : ℕ) : Io σ Loaded := do
  match ← resolvePath fs filename with
  | none => pure ⟨false, 0, buffer⟩
  | some found =>
    if !entryIsFile found.entry then pure ⟨false, 0, buffer⟩
    else if bufferSize < entrySize found.entry then pure ⟨false, 0, buffer⟩
    else if entrySize found.entry = 0 then pure ⟨true, 0, buffer⟩
    else
      let size := entrySize found.entry
      loadLoop fs size size (entryCluster found.entry) 0 buffer

def newEntry (name : Buf) (attr : UInt8) (cluster : ℕ) : Buf := fun j =>
  if j < 11 then name j
  else if j = 11 then attr
  else if j = 20 then UInt8.ofNat (cluster / 65536)
  else if j = 21 then UInt8.ofNat (cluster / 65536 / 256)
  else if j = 26 then UInt8.ofNat cluster
  else if j = 27 then UInt8.ofNat (cluster / 256)
  else 0

/-- Where a new entry goes: its short name, the first cluster of the directory, the index of a slot
and the first cluster of the file or directory. -/
structure EntryPlan where
  name : Buf
  parent : ℕ
  index : ℕ
  cluster : ℕ

/-- What `fat32_create_file` and `fat32_mkdir` do before they change anything. -/
def planEntry (path : List UInt8) : Io σ (Option EntryPlan) :=
  match make83Name path with
  | none => pure none
  | some name83 => do
    match ← resolvePath fs path with
    | some _ => pure none
    | none =>
      match ← parentCluster fs path with
      | none => pure none
      | some parent =>
        match ← findFreeSlotInDir fs parent with
        | none => pure none
        | some index => do
          let cluster ← findFreeCluster fs
          if cluster = 0xFFFFFFFF then pure none else pure (some ⟨name83, parent, index, cluster⟩)

def createFile (filename : List UInt8) : Io σ Bool := do
  match ← planEntry fs filename with
  | none => pure false
  | some p => do
    setCluster fs p.cluster 0x0FFFFFFF
    writeEntryAt fs p.parent p.index (newEntry p.name 0x20 p.cluster)

/-- The loop of `fat32_delete_file`. It has no bound of its own: each round clears the entry of
a valid cluster, so it ends at the latest when there is none left. -/
def freeChain : ℕ → ℕ → Io σ Unit
  | 0, _ => pure ()
  | fuel + 1, cluster =>
    if validCluster cluster then do
      let next ← getNextCluster fs cluster
      setCluster fs cluster 0
      freeChain fuel next
    else pure ()

def deleteFile (filename : List UInt8) : Io σ Bool := do
  match ← resolvePath fs filename with
  | none => pure false
  | some found =>
    if entryIsDir found.entry then pure false
    else do
      freeChain fs (2 ^ 28) (entryCluster found.entry)
      writeEntryAt fs found.cluster found.index (Function.update found.entry 0 0xE5)

def dotName : Buf := fun j => if j = 0 then 0x2E else 0x20

def dotDotName : Buf := fun j => if j < 2 then 0x2E else 0x20

def newDirCluster (self parent : ℕ) : Buf := fun j =>
  if j < 32 then newEntry dotName 0x10 self j
  else if j < 64 then newEntry dotDotName 0x10 parent (j - 32)
  else 0

def mkdir (path : List UInt8) : Io σ Bool := do
  match ← planEntry fs path with
  | none => pure false
  | some p => do
    setCluster fs p.cluster 0x0FFFFFFF
    match ← kmallocBuf fs.env with
    | none => do
      setCluster fs p.cluster 0
      pure false
    | some _ => do
      vfsWriteDevice fs.dev (fs.mount.clusterOffset p.cluster) fs.mount.clusterSize
        (newDirCluster p.cluster p.parent)
      writeEntryAt fs p.parent p.index (newEntry p.name 0x10 p.cluster)

end MicroK.Fat32
