import Mathlib
import MicroK.BlockDevice
import MicroK.CheckedState
import MicroK.PointerPaths

/-!
# The ext driver: superblock, group descriptors, inodes and blocks

What the driver reads from a volume, and where. A run keeps a list of the accesses made to the
device with what each one was for, the buffers that are allocated and the number of calls of
`kmalloc` so far. Offsets are computed in 32 or 64 bits as in the source.
-/

namespace MicroK.Ext

open Nat

def field (f : Image) (off n : ℕ) : ℕ := leValue (f.bytes off n)

structure Superblock where
  inodesCount : ℕ
  blocksCount : ℕ
  logBlockSize : ℕ
  blocksPerGroup : ℕ
  inodesPerGroup : ℕ
  magic : ℕ
  inodeSize : ℕ
  deriving DecidableEq

def superblockSize : ℕ := 104

def Superblock.ofImage (f : Image) : Superblock where
  inodesCount := field f 0 4
  blocksCount := field f 4 4
  logBlockSize := field f 24 4
  blocksPerGroup := field f 32 4
  inodesPerGroup := field f 40 4
  magic := field f 56 2
  inodeSize := field f 88 2

/-- A mounted volume. The fields state what `ext_mount` has checked. -/
structure Mount where
  superblock : Superblock
  blockSize : ℕ
  inodeSize : ℕ
  blockSize_ge : 1024 ≤ blockSize
  blockSize_dvd : blockSize ∣ 65536
  blocksCount_pos : 0 < superblock.blocksCount
  inodesCount_pos : 0 < superblock.inodesCount
  blocksPerGroup_pos : 0 < superblock.blocksPerGroup
  inodesPerGroup_pos : 0 < superblock.inodesPerGroup
  inodeSize_ge : 128 ≤ inodeSize
  inodeSize_le : inodeSize ≤ blockSize
  deriving DecidableEq

variable (sb : Superblock)

/-- A shift of more than six is taken for six. -/
def Superblock.blockSize : ℕ := 1024 <<< min sb.logBlockSize 6

theorem Superblock.blockSize_eq :
    sb.blockSize = 1024 * 2 ^ min sb.logBlockSize 6 := shiftLeft_eq _ _

theorem Superblock.blockSize_ge : 1024 ≤ sb.blockSize := by
  rw [sb.blockSize_eq]
  exact Nat.le_mul_of_pos_right _ (by positivity)

theorem Superblock.blockSize_dvd : sb.blockSize ∣ 65536 := by
  rw [sb.blockSize_eq]
  exact mul_dvd_mul_left 1024 (pow_dvd_pow 2 (min_le_right sb.logBlockSize 6))

def Superblock.mountedInodeSize : ℕ := if sb.inodeSize ≠ 0 then sb.inodeSize else 128

/-- The checks of `ext_mount` on the superblock it has read. -/
def Mount.ofSuperblock : Option Mount :=
  if h : sb.blocksCount = 0 ∨ sb.inodesCount = 0 ∨ sb.blocksPerGroup = 0 ∨
      sb.inodesPerGroup = 0 ∨ sb.mountedInodeSize < 128 ∨ sb.blockSize < sb.mountedInodeSize then
    none
  else
    some
      { superblock := sb
        blockSize := sb.blockSize
        inodeSize := sb.mountedInodeSize
        blockSize_ge := sb.blockSize_ge
        blockSize_dvd := sb.blockSize_dvd
        blocksCount_pos := by omega
        inodesCount_pos := by omega
        blocksPerGroup_pos := by omega
        inodesPerGroup_pos := by omega
        inodeSize_ge := by omega
        inodeSize_le := by omega }

theorem Mount.blockSize_le (m : Mount) : m.blockSize ≤ 65536 :=
  le_of_dvd (by norm_num) m.blockSize_dvd

theorem Mount.blockSize_pos (m : Mount) : 0 < m.blockSize :=
  lt_of_lt_of_le (by norm_num) m.blockSize_ge

structure Inode where
  mode : ℕ
  size : ℕ
  flags : ℕ
  block : Vector ℕ 15
  deriving DecidableEq

def sizeofInode : ℕ := 100

def Inode.ofImage (f : Image) : Inode where
  mode := field f 0 2
  size := field f 4 4
  flags := field f 32 4
  block := Vector.ofFn fun i => field f (40 + 4 * i) 4

/-- What an access to the device is for. An inode is named by the block of its table and its place
in the table. -/
inductive Item
  | bootSector
  | superblock
  | group (group : ℕ)
  | inode (table index : ℕ)
  | block (block : ℕ)
  deriving DecidableEq

structure Access where
  item : Item
  offset : ℕ
  size : ℕ
  deriving DecidableEq

structure Session (σ : Type) where
  dev : σ
  accesses : List Access := []
  allocs : ℕ := 0
  live : List ℕ := []
  /-- The buffer that the global mount pointer points to. -/
  mounted : Option ℕ := none

def Session.heap {σ : Type} (s : Session σ) : List ℕ × ℕ × Option ℕ := (s.live, s.allocs, s.mounted)

structure Disk (σ : Type) extends Device σ where
  read_le : ∀ f, toDevice.read = some f → ∀ s offset size, (f s offset size).1.1 ≤ size

abbrev Reader (σ : Type) := Checked (Session σ)

variable {σ : Type}

/-- `vfs_read_device` for an item, into a buffer. The number of bytes is missing where the C
function returns a negative number. -/
def readDevice (disk : Disk σ) (item : Item) (offset size : ℕ) (buffer : Image) :
    Reader σ (Option ℕ × Image) := fun s =>
  match disk.read with
  | none => .ok ((none, buffer), s)
  | some read =>
    if disk.blockSize = 0 then .ok ((none, buffer), s)
    else
      let got := read s.dev offset size
      if buffer.size < got.1.1 then .fault
      else
        .ok ((some got.1.1, ⟨buffer.size, Buf.copyAt buffer.byte 0 got.1.1 got.1.2⟩),
          { s with dev := got.2, accesses := ⟨item, offset, size⟩ :: s.accesses })

def kmalloc (env : Env σ) (size : ℕ) : Reader σ (Option (ℕ × Image)) := fun s =>
  if env.kmallocOk s.allocs then
    .ok (some (s.allocs, ⟨size, env.heapBytes s.allocs⟩),
      { s with allocs := s.allocs + 1, live := s.allocs :: s.live })
  else .ok (none, { s with allocs := s.allocs + 1 })

def kfree (buffer : ℕ) : Reader σ Unit := fun s =>
  if buffer ∈ s.live then .ok ((), { s with live := s.live.erase buffer }) else .fault

/-- A local variable of the driver. It is only looked at after a read that has filled it. -/
def localRecord (size : ℕ) : Image := ⟨size, fun _ => 0⟩

def readSuperblock (disk : Disk σ) (out : Image) : Reader σ (Option Superblock) := do
  let (got, out) ← readDevice disk .superblock 1024 superblockSize out
  match got with
  | none => pure none
  | some _ =>
    let sb := Superblock.ofImage out
    pure (if sb.magic = 0xEF53 then some sb else none)

section

variable (disk : Disk σ) (m : Mount)

def blockOffsetChecked (block : ℕ) : Option ℕ :=
  if 0xFFFFFFFF < block * m.blockSize then none else some (block * m.blockSize)

def readBlock (block : ℕ) (buffer : Image) : Reader σ (Bool × Image) := do
  if m.superblock.blocksCount ≠ 0 ∧ m.superblock.blocksCount ≤ block then pure (false, buffer)
  else
    match blockOffsetChecked m block with
    | none => pure (false, buffer)
    | some offset =>
      let (got, buffer) ← readDevice disk (.block block) offset m.blockSize buffer
      pure (got = some m.blockSize, buffer)

def gdTable : ℕ := if m.blockSize = 1024 then 2048 else m.blockSize

def readGroup0 : Reader σ Bool := do
  let (got, _) ← readDevice disk (.group 0) (gdTable m) 32 (localRecord 32)
  pure (got = some 32)

def groupCount : ℕ :=
  u32 (m.superblock.blocksCount + m.superblock.blocksPerGroup - 1) / m.superblock.blocksPerGroup

def readGroupDesc (group : ℕ) : Reader σ (Option ℕ) := do
  if m.superblock.blocksPerGroup = 0 then pure none
  else if groupCount m = 0 ∨ groupCount m ≤ group then pure none
  else
    let (got, out) ← readDevice disk (.group group) (u32 (gdTable m + u32 (group * 32))) 32
      (localRecord 32)
    pure (if got = some 32 then some (field out 8 4) else none)

def readInode (inodeNum : ℕ) : Reader σ (Option Inode) := do
  if inodeNum = 0 then pure none
  else if m.superblock.inodesPerGroup = 0 then pure none
  else
    let index := inodeNum - 1
    let group := index / m.superblock.inodesPerGroup
    let localIndex := index % m.superblock.inodesPerGroup
    match ← readGroupDesc disk m group with
    | none => pure none
    | some table =>
      match blockOffsetChecked m table with
      | none => pure none
      | some tableOffset =>
        let inodeOffset := tableOffset + localIndex * m.inodeSize
        if 0xFFFFFFFF < inodeOffset then pure none
        else
          let (got, out) ← readDevice disk (.inode table localIndex) inodeOffset sizeofInode
            (localRecord sizeofInode)
          pure (if got = some sizeofInode then some (Inode.ofImage out) else none)

def entriesPerBlock : ℕ := m.blockSize / 4

/-- One step down the tree: the pointer at an index of an indirect block. It is zero where the
block is missing or cannot be read. -/
def readPointer (block index : ℕ) (scratch : Image) : Reader σ (ℕ × Image) := do
  if block = 0 then pure (0, scratch)
  else
    let (ok, scratch) ← readBlock disk m block scratch
    if ok then
      let pointer ← Checked.lift (scratch.readLe (4 * index) 4)
      pure (pointer, scratch)
    else pure (0, scratch)

/-- The physical block of a logical block, or zero, and the scratch buffer after it. -/
def inodeBlock (inode : Inode) (logicalBlock : ℕ) (scratch : Image) : Reader σ (ℕ × Image) := do
  let entries := entriesPerBlock m
  if h : logicalBlock < 12 then pure (inode.block.get ⟨logicalBlock, by omega⟩, scratch)
  else
    let logicalBlock := logicalBlock - 12
    if logicalBlock < entries then readPointer disk m (inode.block.get 12) logicalBlock scratch
    else
      let logicalBlock := logicalBlock - entries
      let doubleSpan := u32 (entries * entries)
      if logicalBlock < doubleSpan then
        let (first, scratch) ← readPointer disk m (inode.block.get 13)
          (logicalBlock / entries) scratch
        readPointer disk m first (logicalBlock % entries) scratch
      else
        let logicalBlock := logicalBlock - doubleSpan
        let rest := logicalBlock % doubleSpan
        if entries ≤ logicalBlock / doubleSpan then pure (0, scratch)
        else
          let (first, scratch) ←
            readPointer disk m (inode.block.get 14) (logicalBlock / doubleSpan) scratch
          let (second, scratch) ← readPointer disk m first (rest / entries) scratch
          readPointer disk m second (rest % entries) scratch

theorem Mount.entriesPerBlock_pos : 0 < entriesPerBlock m := by
  have h := m.blockSize_ge
  unfold entriesPerBlock
  omega

theorem Mount.doubleSpan_eq :
    u32 (entriesPerBlock m * entriesPerBlock m) = entriesPerBlock m * entriesPerBlock m := by
  have hle : entriesPerBlock m ≤ 16384 := by
    have h := m.blockSize_le
    unfold entriesPerBlock
    omega
  have hsquare := mul_le_mul hle hle
  exact u32_of_lt (by omega)

section

variable (inode : Inode) (scratch : Image) {k : ℕ}

theorem inodeBlock_direct (hk : k < 12) : inodeBlock disk m inode k scratch =
    pure (inode.block.get ⟨k, hk.trans (by norm_num)⟩, scratch) := dif_pos hk

theorem inodeBlock_single (hk : k < entriesPerBlock m) : inodeBlock disk m inode (12 + k) scratch =
    readPointer disk m (inode.block.get 12) k scratch := by
  have hsub : 12 + k - 12 = k := by omega
  dsimp only [inodeBlock]
  rw [dif_neg (by omega), hsub, if_pos hk]

theorem inodeBlock_double (hk : k < entriesPerBlock m * entriesPerBlock m) :
    inodeBlock disk m inode (12 + entriesPerBlock m + k) scratch = (do
      let (first, scratch) ← readPointer disk m (inode.block.get 13) (k / entriesPerBlock m) scratch
      readPointer disk m first (k % entriesPerBlock m) scratch) := by
  have hsub : 12 + entriesPerBlock m + k - 12 - entriesPerBlock m = k := by omega
  dsimp only [inodeBlock]
  rw [dif_neg (by omega), if_neg (by omega), hsub, m.doubleSpan_eq, if_pos hk]

theorem inodeBlock_triple (hk : k < entriesPerBlock m * (entriesPerBlock m * entriesPerBlock m)) :
    inodeBlock disk m inode (12 + entriesPerBlock m + entriesPerBlock m * entriesPerBlock m + k)
      scratch = (do
        let (first, scratch) ← readPointer disk m (inode.block.get 14)
          (k / (entriesPerBlock m * entriesPerBlock m)) scratch
        let (second, scratch) ← readPointer disk m first
          (k % (entriesPerBlock m * entriesPerBlock m) / entriesPerBlock m) scratch
        readPointer disk m second
          (k % (entriesPerBlock m * entriesPerBlock m) % entriesPerBlock m) scratch) := by
  have hsub : 12 + entriesPerBlock m + entriesPerBlock m * entriesPerBlock m + k - 12 -
    entriesPerBlock m - entriesPerBlock m * entriesPerBlock m = k := by omega
  have hfirst : k / (entriesPerBlock m * entriesPerBlock m) < entriesPerBlock m :=
    Nat.div_lt_of_lt_mul (by rwa [Nat.mul_comm])
  dsimp only [inodeBlock]
  rw [m.doubleSpan_eq, dif_neg (by omega), if_neg (by omega), if_neg (by omega), hsub,
    if_neg (by omega)]

theorem inodeBlock_beyond {l : ℕ}
    (hl : 12 + entriesPerBlock m + entriesPerBlock m * entriesPerBlock m +
      entriesPerBlock m * (entriesPerBlock m * entriesPerBlock m) ≤ l) :
    inodeBlock disk m inode l scratch = pure (0, scratch) := by
  have hpos := m.entriesPerBlock_pos
  have hfirst : entriesPerBlock m ≤ (l - 12 - entriesPerBlock m -
      entriesPerBlock m * entriesPerBlock m) / (entriesPerBlock m * entriesPerBlock m) := by
    rw [le_div_iff_mul_le (mul_pos hpos hpos)]
    omega
  dsimp only [inodeBlock]
  rw [m.doubleSpan_eq, dif_neg (by omega), if_neg (by omega), if_neg (by omega), if_pos hfirst]

end

end

/-- A place in the tree, for indirect blocks of `e` pointers. -/
inductive Position (e : ℕ)
  | direct (i : Fin 12)
  | single (a : Fin e)
  | double (a b : Fin e)
  | triple (a b c : Fin e)

namespace Position

variable {e : ℕ}

def index : Position e → ℕ
  | direct i => i
  | single a => 12 + a
  | double a b => 12 + e + (a * e + b)
  | triple a b c => 12 + e + e * e + (a * (e * e) + (b * e + c))

def root : Position e → Fin 15
  | direct i => i.castLE (by norm_num)
  | single _ => 12
  | double _ _ => 13
  | triple _ _ _ => 14

def path : Position e → List ℕ
  | direct _ => []
  | single a => [a.val]
  | double a b => [a.val, b.val]
  | triple a b c => [a.val, b.val, c.val]

end Position

def maxBlocks (e : ℕ) : ℕ := 12 + e + e * e + e * (e * e)

theorem digit_lt {e n a b : ℕ} (ha : a < e) (hb : b < n) : a * n + b < e * n :=
  calc a * n + b < a * n + n := Nat.add_lt_add_left hb _
    _ = (a + 1) * n := (succ_mul a n).symm
    _ ≤ e * n := mul_le_mul_right n ha

theorem div_digit {n a b : ℕ} (hb : b < n) : (a * n + b) / n = a ∧ (a * n + b) % n = b := by
  rw [Nat.div_mod_unique (by omega)]
  exact ⟨by rw [mul_comm n a, add_comm], hb⟩

/-- Every logical block below the limit has a place, and no other has one. -/
theorem exists_position_iff {e l : ℕ} : (∃ pos : Position e, pos.index = l) ↔ l < maxBlocks e := by
  constructor
  · rintro ⟨pos, rfl⟩
    unfold maxBlocks
    cases pos with
    | direct i => exact lt_of_lt_of_le i.2 (by omega)
    | single a => exact lt_of_lt_of_le (Nat.add_lt_add_left a.2 12) (by omega)
    | double a b =>
      have h := digit_lt a.2 b.2
      dsimp only [Position.index]
      omega
    | triple a b c =>
      have h := digit_lt a.2 (digit_lt b.2 c.2)
      dsimp only [Position.index]
      omega
  · intro h
    unfold maxBlocks at h
    rcases lt_or_ge l 12 with hdirect | hdirect
    · exact ⟨.direct ⟨l, hdirect⟩, rfl⟩
    rcases lt_or_ge l (12 + e) with hsingle | hsingle
    · exact ⟨.single ⟨l - 12, by omega⟩, by dsimp only [Position.index]; omega⟩
    rcases lt_or_ge l (12 + e + e * e) with hdouble | hdouble
    · have he : 0 < e := pos_of_ne_zero (by rintro rfl; omega)
      obtain ⟨k, rfl⟩ := Nat.exists_eq_add_of_le hsingle
      refine ⟨.double ⟨k / e, Nat.div_lt_of_lt_mul (by omega)⟩ ⟨k % e, Nat.mod_lt k he⟩, ?_⟩
      dsimp only [Position.index]
      rw [div_add_mod']
    · have he : 0 < e := pos_of_ne_zero (by rintro rfl; omega)
      obtain ⟨k, rfl⟩ := Nat.exists_eq_add_of_le hdouble
      have hrest : k % (e * e) < e * e := mod_lt k (mul_pos he he)
      refine ⟨.triple ⟨k / (e * e), Nat.div_lt_of_lt_mul ?_⟩
        ⟨k % (e * e) / e, Nat.div_lt_of_lt_mul hrest⟩ ⟨k % (e * e) % e, Nat.mod_lt _ he⟩, ?_⟩
      · rw [mul_comm]
        omega
      · dsimp only [Position.index]
        rw [div_add_mod', div_add_mod']

variable (disk : Disk Unit)

def Disk.answer (offset size : ℕ) : Option (ℕ × Buf) :=
  match disk.read with
  | none => none
  | some read => if disk.blockSize = 0 then none else some (read () offset size).1

def blockBytes (m : Mount) (block : ℕ) : Option Buf :=
  if block < m.superblock.blocksCount ∧ block * m.blockSize < 2 ^ 32 then
    match disk.answer (block * m.blockSize) m.blockSize with
    | none => none
    | some got => if got.1 = m.blockSize then some got.2 else none
  else none

def pointerTable (m : Mount) (block : ℕ) : Option (ℕ → ℕ) :=
  (blockBytes disk m block).map fun bytes i => field ⟨m.blockSize, bytes⟩ (4 * i) 4

theorem field_congr {f g : Image} {off n : ℕ} (h : ∀ i < n, f.byte (off + i) = g.byte (off + i)) :
    field f off n = field g off n := by
  refine congrArg leValue (List.map_congr_left fun i hi => ?_)
  exact h i (List.mem_range.mp hi)

section

open Checked

variable (disk : Disk Unit) (m : Mount) {h : List ℕ × ℕ × Option ℕ}

theorem total_readDevice_answer (item : Item) (offset size : ℕ) {buffer : Image}
    (hsize : size ≤ buffer.size) :
    Total (fun s => s.heap = h) (readDevice disk item offset size buffer) fun r s => s.heap = h ∧
      r.1 = (disk.answer offset size).map Prod.fst ∧ r.2.size = buffer.size ∧
      ∀ got, disk.answer offset size = some got → ∀ i < got.1, r.2.byte i = got.2 i := by
  intro s hs
  unfold readDevice Disk.answer
  cases hread : disk.read with
  | none => exact ⟨_, s, rfl, hs, rfl, rfl, nofun⟩
  | some read =>
    dsimp only
    by_cases hzero : disk.blockSize = 0
    · rw [if_pos hzero, if_pos hzero]
      exact ⟨_, s, rfl, hs, rfl, rfl, nofun⟩
    have hle := disk.read_le read hread s.dev offset size
    rw [if_neg hzero, if_neg hzero, if_neg (by omega)]
    refine ⟨_, _, rfl, hs, rfl, rfl, ?_⟩
    rintro got hgot i hi
    cases hgot
    exact Buf.copyAt_of_mem (zero_le i) (by rw [zero_add]; exact hi)

theorem total_readBlock_bytes (block : ℕ) {buffer : Image} (hsize : buffer.size = m.blockSize) :
    Total (fun s => s.heap = h) (readBlock disk m block buffer) fun r s => s.heap = h ∧
      r.1 = (blockBytes disk m block).isSome ∧ r.2.size = m.blockSize ∧
      ∀ bytes, blockBytes disk m block = some bytes → ∀ i < m.blockSize, r.2.byte i = bytes i := by
  have hpos := m.blocksCount_pos
  unfold readBlock blockOffsetChecked blockBytes
  refine Total.ite (fun hout => ?_) fun hin => ?_
  · rw [if_neg (by omega)]
    exact Total.pure fun s hs => ⟨hs, rfl, hsize, nofun⟩
  by_cases hfar : 0xFFFFFFFF < block * m.blockSize
  · rw [if_pos hfar, if_neg (by omega)]
    exact Total.pure fun s hs => ⟨hs, rfl, hsize, nofun⟩
  rw [if_neg hfar, if_pos (by omega)]
  refine Total.bind (total_readDevice_answer disk (.block block) _ m.blockSize hsize.ge) fun r => ?_
  refine Total.pure fun s ⟨hs, hgot, hbuffer, hbytes⟩ => ⟨hs, ?_, hbuffer.trans hsize, ?_⟩
  · cases hanswer : disk.answer (block * m.blockSize) m.blockSize with
    | none => simp [hgot, hanswer]
    | some got =>
      by_cases hcount : got.1 = m.blockSize
      · simp [hgot, hanswer, hcount]
      · simp [hgot, hanswer, hcount]
  · intro bytes hsome i hi
    cases hanswer : disk.answer (block * m.blockSize) m.blockSize with
    | none =>
      rw [hanswer] at hsome
      cases hsome
    | some got =>
      rw [hanswer] at hsome
      dsimp only at hsome
      split_ifs at hsome with hcount
      cases hsome
      exact hbytes got hanswer i (by omega)

theorem total_readPointer_path (block : ℕ) {index : ℕ} (hindex : index < entriesPerBlock m)
    {scratch : Image} (hsize : scratch.size = m.blockSize) :
    Total (fun s => s.heap = h) (readPointer disk m block index scratch) fun r s => s.heap = h ∧
      r.2.size = m.blockSize ∧ r.1 = followPath (pointerTable disk m) block [index] := by
  refine Total.ite (fun hzero => ?_) fun hblock => ?_
  · rw [hzero, followPath_zero]
    exact Total.pure fun s hs => ⟨hs, hsize, rfl⟩
  refine Total.bind (total_readBlock_bytes disk m block hsize) fun ⟨ok, scratch⟩ => ?_
  have hfits : 4 * index + 4 ≤ m.blockSize := by
    unfold entriesPerBlock at hindex
    omega
  refine Total.ite (fun hok => ?_) fun hok => ?_
  · intro s ⟨hs, hsome, hsize, hbytes⟩
    obtain ⟨bytes, hblockBytes⟩ := Option.isSome_iff_exists.mp (hsome.symm.trans hok)
    have htable : pointerTable disk m block = some _ := congrArg (Option.map _) hblockBytes
    have hread : scratch.readLe (4 * index) 4 = .ok _ := Image.readLe_eq (hsize ▸ hfits)
    refine Total.lift_bind (P := fun s => s.heap = h) (f := fun pointer => pure (pointer, scratch))
      hread (Total.pure fun s hs => ⟨hs, hsize, ?_⟩) s hs
    rw [followPath_of_some hblock htable]
    exact field_congr fun i hi => hbytes bytes hblockBytes (4 * index + i) (by omega)
  · refine Total.pure fun s ⟨hs, hsome, hsize, _⟩ => ⟨hs, hsize, ?_⟩
    have hnone : blockBytes disk m block = none :=
      Option.not_isSome_iff_eq_none.mp (hsome ▸ hok)
    exact (followPath_of_none (congrArg (Option.map _) hnone)).symm

/-- Below the limit the driver finds the pointer at the place of the logical block. -/
theorem total_inodeBlock_position (inode : Inode) (pos : Position (entriesPerBlock m))
    {scratch : Image} (hsize : scratch.size = m.blockSize) :
    Total (fun s => s.heap = h) (inodeBlock disk m inode pos.index scratch) fun r s =>
      s.heap = h ∧ r.2.size = m.blockSize ∧
        r.1 = followPath (pointerTable disk m) (inode.block.get pos.root) pos.path := by
  cases pos with
  | direct i =>
    rw [Position.index, inodeBlock_direct disk m inode scratch i.2]
    exact Total.pure fun s hs => ⟨hs, hsize, rfl⟩
  | single a =>
    rw [Position.index, inodeBlock_single disk m inode scratch a.2]
    exact total_readPointer_path disk m _ a.2 hsize
  | double a b =>
    obtain ⟨hdiv, hmod⟩ := div_digit (a := a.val) b.2
    rw [Position.index, inodeBlock_double disk m inode scratch (digit_lt a.2 b.2), hdiv, hmod]
    refine Total.bind (total_readPointer_path disk m _ a.2 hsize) fun ⟨first, scratch⟩ => ?_
    intro s ⟨hs, hsize, hfirst⟩
    rw [Position.path, followPath_cons, Position.root, ← hfirst]
    exact total_readPointer_path disk m first b.2 hsize s hs
  | triple a b c =>
    have hrest := digit_lt b.2 c.2
    obtain ⟨hdiv, hmod⟩ := div_digit (a := a.val) hrest
    obtain ⟨hdiv', hmod'⟩ := div_digit (a := b.val) c.2
    rw [Position.index, inodeBlock_triple disk m inode scratch (digit_lt a.2 hrest), hdiv, hmod,
      hdiv', hmod']
    refine Total.bind (total_readPointer_path disk m _ a.2 hsize) fun ⟨first, scratch⟩ => ?_
    intro s ⟨hs, hsize, hfirst⟩
    refine Total.bind (total_readPointer_path disk m first b.2 hsize) (fun ⟨second, scratch⟩ => ?_)
      s hs
    intro s ⟨hs, hsize, hsecond⟩
    rw [Position.path, followPath_cons, followPath_cons, Position.root, ← hfirst, ← hsecond]
    exact total_readPointer_path disk m second c.2 hsize s hs

/-- The driver finds the pointer that the tree has for the logical block. It finds zero exactly
when a pointer on the path is zero, an indirect block cannot be read, or there is no such place. -/
theorem inodeBlock_spec (inode : Inode) (logical : ℕ) (scratch : Buf) (s : Session Unit) :
    ∃ block scratch' s',
      inodeBlock disk m inode logical ⟨m.blockSize, scratch⟩ s = .ok ((block, scratch'), s') ∧
      (∀ pos : Position (entriesPerBlock m), pos.index = logical →
        block = followPath (pointerTable disk m) (inode.block.get pos.root) pos.path) ∧
      (block = 0 ↔ (∃ pos : Position (entriesPerBlock m), pos.index = logical ∧
          PathBroken (pointerTable disk m) (inode.block.get pos.root) pos.path) ∨
        maxBlocks (entriesPerBlock m) ≤ logical) := by
  have hsize : (⟨m.blockSize, scratch⟩ : Image).size = m.blockSize := rfl
  rcases lt_or_ge logical (maxBlocks (entriesPerBlock m)) with hlt | hge
  · obtain ⟨pos, rfl⟩ := exists_position_iff.mpr hlt
    obtain ⟨⟨block, scratch'⟩, s', hrun, -, -, hblock⟩ :=
      total_inodeBlock_position disk m inode pos hsize s rfl
    have hall : ∀ pos' : Position (entriesPerBlock m), pos'.index = pos.index →
        block = followPath (pointerTable disk m) (inode.block.get pos'.root) pos'.path := by
      intro pos' hindex
      obtain ⟨r, t, hrun', -, -, hblock'⟩ :=
        total_inodeBlock_position disk m inode pos' hsize s rfl
      rw [hindex, hrun] at hrun'
      obtain ⟨rfl, -⟩ := Prod.mk.inj (Outcome.ok.inj hrun')
      exact hblock'
    refine ⟨block, scratch', s', hrun, hall, fun hzero => .inl ⟨pos, rfl, ?_⟩, ?_⟩
    · exact followPath_eq_zero_iff.mp (hblock.symm.trans hzero)
    · rintro (⟨pos', hindex, hbroken⟩ | hge)
      · exact (hall pos' hindex).trans (followPath_eq_zero_iff.mpr hbroken)
      · omega
  · have hrun := inodeBlock_beyond disk m inode ⟨m.blockSize, scratch⟩ hge
    refine ⟨0, _, s, congrFun hrun s, fun pos hpos => ?_, ?_⟩
    · have hlt := exists_position_iff.mp ⟨pos, hpos⟩
      omega
    · exact ⟨fun _ => .inr hge, fun _ => rfl⟩

end

end MicroK.Ext
