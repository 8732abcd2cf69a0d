import MicroK.DriverBytes

/-!
# Partitions of a disk

`partition_scan_mbr` and `partition_scan_gpt` make a device for every usable entry of the partition
table, and `partition_read` passes a request on to the driver of the disk. Both count in sectors of
512 bytes. The outcome of `kmalloc` for each entry is an input.
-/

namespace MicroK

open Buf Nat

def le64 (b : Buf) (i : ℕ) : ℕ := le32 b i + 2 ^ 32 * le32 b (i + 4)

inductive ParentDisk where
  | ata (sectors : ℕ)
  | uhci (m : MsdDevice)
  | ehci (m : MsdDevice)

variable (parent : ParentDisk)

namespace ParentDisk

def blockSize : ParentDisk → ℕ
  | ata _ => 512
  | uhci m => m.blockSize
  | ehci m => m.blockSize

def blockCount : ParentDisk → ℕ
  | ata sectors => sectors
  | uhci m => m.blockCount
  | ehci m => m.blockCount

def read (offset size : ℕ) (buffer disk : Buf) : ℕ × Buf :=
  match parent with
  | ata sectors => Prod.map id Prod.snd
      (ataBlockRead (ataDrive sectors) sectors offset size buffer disk)
  | uhci m => Prod.map id Prod.snd
      (uhciMsdBlockRead (scsiDisk m.blockSize m.blockCount) m offset size buffer disk)
  | ehci m => Prod.map id Prod.snd
      (ehciMsdBlockRead (scsiDisk m.blockSize m.blockCount) m offset size buffer disk)

end ParentDisk

structure PartitionDevice where
  firstLba : ℕ
  sectors : ℕ
  type : UInt8
  name : List UInt8
deriving DecidableEq, Repr

def partitionRead (part : PartitionDevice) (offset size : ℕ)
    (buffer disk : Buf) : ℕ × Buf :=
  let start := part.firstLba * 512
  let limit := part.sectors * 512
  if limit ≤ offset then (0, buffer)
  else
    let size := if limit < offset + size then u32 (limit - offset) else size
    let finalOffset := start + offset
    if 0xFFFFFFFF < finalOffset then (0, buffer)
    else parent.read finalOffset size buffer disk

def makePartitionName (diskName : List UInt8) (index : ℕ) : List UInt8 :=
  diskName.take 10 ++ [0x70, UInt8.ofNat (0x30 + index)]

/-- What the scanner finds around it: the name of the disk, the outcome of `kmalloc` for each entry,
the number of free places in the device table and the bytes of its buffers. -/
structure ScanEnv where
  diskName : List UInt8
  kmallocOk : ℕ → Bool
  freeSlots : ℕ
  stackBytes : Buf

variable (parent : ParentDisk) (env : ScanEnv) (disk : Buf)

def gptSignature : List UInt8 := [0x45, 0x46, 0x49, 0x20, 0x50, 0x41, 0x52, 0x54]

/-- An entry of the GPT, if its bytes can be read and it is in use. -/
def gptEntry (header : Buf) (i : ℕ) : Option PartitionDevice :=
  let entrySize := le32 header 84
  let entryOffset := (le64 header 72 * 512 + i * entrySize) % 2 ^ 64
  if 128 < entrySize then none
  else if 0xFFFFFFFF < entryOffset then none
  else
    let got := parent.read entryOffset entrySize env.stackBytes disk
    let first := le64 got.2 32
    let last := le64 got.2 40
    if got.1 ≠ entrySize then none
    else if (∀ j < 16, got.2 j = 0) ∨ first = 0 ∨ last < first then none
    else if 0xFFFFFFFF < first ∨ 0xFFFFFFFF < last then none
    else if env.kmallocOk i then
      some ⟨first, u32 (last - first + 1), 0xEE, makePartitionName env.diskName (i + 1)⟩
    else none

def partitionScanGpt : List PartitionDevice :=
  let got := parent.read 512 512 env.stackBytes disk
  let header := got.2
  if got.1 ≠ 512 then []
  else if (List.range 8).map header ≠ gptSignature ∨ le32 header 84 < 128 then []
  else ((List.range (min (le32 header 80) 16)).filterMap (gptEntry parent env disk header)).take
    env.freeSlots

def mbrType (mbr : Buf) (i : ℕ) : UInt8 := mbr (446 + 16 * i + 4)

def mbrEntry (mbr : Buf) (i : ℕ) : Option PartitionDevice :=
  let first := le32 mbr (446 + 16 * i + 8)
  let sectors := le32 mbr (446 + 16 * i + 12)
  if mbrType mbr i = 0 ∨ sectors = 0 then none
  else if env.kmallocOk i then
    some ⟨first, sectors, mbrType mbr i, makePartitionName env.diskName (i + 1)⟩
  else none

def partitionScanMbr : List PartitionDevice :=
  let got := parent.read 0 512 env.stackBytes disk
  let mbr := got.2
  if got.1 ≠ 512 then []
  else if mbr 510 ≠ 0x55 ∨ mbr 511 ≠ 0xAA then []
  else if (List.range 4).any (mbrType mbr · == 0xEE) then partitionScanGpt parent env disk
  else ((List.range 4).filterMap (mbrEntry env mbr)).take env.freeSlots

variable {parent env disk}

namespace ParentDisk

/-- The driver's controller carries a block of the disk to the buffer. -/
def Carries : ParentDisk → Prop
  | ata _ => True
  | uhci m => uhciBulkTransfer m.bulkInMps m.blockSize
  | ehci _ => True

instance : (parent : ParentDisk) → Decidable parent.Carries
  | ata _ => inferInstanceAs (Decidable True)
  | uhci m => inferInstanceAs (Decidable (uhciBulkTransfer m.bulkInMps m.blockSize = true))
  | ehci _ => inferInstanceAs (Decidable True)

def plan : (parent : ParentDisk) → Transfer.Plan parent.blockSize parent.blockCount
  | ata sectors => ataPlan sectors
  | uhci m => msdPlan m
  | ehci m => msdPlan m

theorem read_pieces {parent : ParentDisk} (hcarries : parent.Carries) (offset size : ℕ)
    (buffer disk : Buf) :
    (parent.read offset size buffer disk).1 = parent.plan.total offset size size 0 ∧
      ∀ p ∈ parent.plan.pieces offset size size 0, ∀ k < p.2,
        (parent.read offset size buffer disk).2 (p.1 + k) = disk (u32 (offset + p.1) + k) := by
  cases parent with
  | ata sectors => exact ataPlan_reads.loop_pieces offset size buffer disk
  | uhci m =>
    have hreads : (msdPlan m).Reads
        (msdReadCommand (uhciMsdCommand (scsiDisk m.blockSize m.blockCount) m) m) := by
      intro absolute left done disk out habsolute hin hleft
      have hfits : uhciBulkTransfer m.bulkInMps m.blockSize = true := hcarries
      simp only [← msdPlan_reads habsolute hin hleft, msdReadCommand, uhciMsdCommand, hfits,
        if_true]
    exact hreads.loop_pieces offset size buffer disk
  | ehci m => exact msdPlan_reads.loop_pieces offset size buffer disk

theorem read_of_not_carries {parent : ParentDisk} (hcarries : ¬parent.Carries) (offset size : ℕ)
    (buffer disk : Buf) : (parent.read offset size buffer disk).1 = 0 := by
  cases parent with
  | ata sectors => exact absurd trivial hcarries
  | uhci m =>
    have hrefused := Bool.eq_false_iff.mpr hcarries
    exact Transfer.loop_of_refused (fun absolute left done x => congrArg Prod.fst
      (msdReadCommand_refused hrefused absolute left done x)) offset size size 0 _
  | ehci m => exact absurd trivial hcarries

end ParentDisk

namespace PartitionDevice

variable (part : PartitionDevice) (parent : ParentDisk) (offset size : ℕ)

def clamp : ℕ := min size (part.sectors * 512 - offset)

/-- The commands the driver makes of a request: how many bytes are done before each, and how many
it moves. -/
def commands : List (ℕ × ℕ) :=
  if part.firstLba * 512 + offset < 2 ^ 32 ∧ parent.Carries then
    parent.plan.pieces (part.firstLba * 512 + offset) (part.clamp offset size)
      (part.clamp offset size) 0
  else []

/-- The bytes that were delivered are those of the partition's own sectors, from the requested
position on. -/
def Own (disk : Buf) (got : ℕ × Buf) : Prop :=
  ∀ j < got.1, offset + j < part.sectors * parent.blockSize ∧
    got.2 j = disk (part.firstLba * parent.blockSize + offset + j)

/-- No command starts past 4 GiB, and the disk has sectors of 512 bytes. With other sectors a
request that reaches the disk is right only for a partition at its very start. -/
def Straight : Prop :=
  (∀ p ∈ part.commands parent offset size, part.firstLba * 512 + offset + p.1 < 2 ^ 32) ∧
    (parent.blockSize = 512 ∨ ∀ p ∈ part.commands parent offset size,
      part.firstLba = 0 ∧ offset + p.1 + p.2 ≤ part.sectors * parent.blockSize)

variable {part parent offset size}

theorem partitionRead_commands (hsize : size < 2 ^ 32) (buffer disk : Buf) :
    (∀ j < (partitionRead parent part offset size buffer disk).1,
      ∃ p ∈ part.commands parent offset size, p.1 ≤ j ∧ j < p.1 + p.2) ∧
    ∀ p ∈ part.commands parent offset size,
      0 < p.2 ∧ p.1 + p.2 ≤ part.clamp offset size ∧
      p.1 + p.2 ≤ (partitionRead parent part offset size buffer disk).1 ∧ ∀ k < p.2,
        (partitionRead parent part offset size buffer disk).2 (p.1 + k) =
          disk (u32 (part.firstLba * 512 + offset + p.1) + k) := by
  have hclamp : part.sectors * 512 > offset →
      (if part.sectors * 512 < offset + size then u32 (part.sectors * 512 - offset) else size) =
        part.clamp offset size := by
    intro hin
    rw [clamp]
    split_ifs with hlong
    · rw [u32_of_lt (by omega)]
      omega
    · omega
  rw [partitionRead, commands]
  by_cases hstart : part.firstLba * 512 + offset < 2 ^ 32 ∧ parent.Carries
  · rw [if_pos hstart]
    obtain ⟨htotal, hpieces⟩ := ParentDisk.read_pieces hstart.2 (part.firstLba * 512 + offset)
      (part.clamp offset size) buffer disk
    by_cases hin : part.sectors * 512 ≤ offset
    · have hzero : part.clamp offset size = 0 := by
        rw [clamp]
        omega
      rw [if_pos hin, hzero]
      exact ⟨fun j hj => absurd hj (not_lt_zero j), fun p hp => by cases hp⟩
    · rw [if_neg hin, if_neg (by omega), hclamp (by omega), htotal]
      refine ⟨fun j hj => Transfer.Plan.exists_piece (zero_le j) hj, fun p hp => ?_⟩
      obtain ⟨-, hlt, hblock, hn, hle⟩ := Transfer.Plan.mem_pieces hp
      refine ⟨?_, hle.trans (Transfer.Plan.total_le (zero_le _)), hle, hpieces p hp⟩
      rw [hn]
      exact parent.plan.pos hblock (Nat.sub_pos_of_lt hlt)
  · rw [if_neg hstart]
    refine ⟨fun j hj => ?_, fun p hp => by cases hp⟩
    by_cases hin : part.sectors * 512 ≤ offset
    · rw [if_pos hin] at hj
      exact absurd hj (not_lt_zero j)
    rw [if_neg hin] at hj
    dsimp only at hj
    by_cases hwide : 0xFFFFFFFF < part.firstLba * 512 + offset
    · rw [if_pos hwide] at hj
      exact absurd hj (not_lt_zero j)
    · have hcarries : ¬parent.Carries := fun h => hstart ⟨by omega, h⟩
      rw [if_neg hwide, ParentDisk.read_of_not_carries hcarries] at hj
      exact absurd hj (not_lt_zero j)

theorem commands_start {p : ℕ × ℕ} (hp : p ∈ part.commands parent offset size) :
    part.firstLba * 512 + offset < 2 ^ 32 := by
  rw [commands] at hp
  split_ifs at hp with hstart
  · exact hstart.1
  · cases hp

theorem eq_of_forall_disk {x y : ℕ} (h : ∀ disk : Buf, disk x = disk y) : x = y := by
  have hx := h fun z => if z = x then 1 else 0
  by_contra hne
  rw [if_pos rfl, if_neg (Ne.symm hne)] at hx
  exact absurd hx (by decide)

/-- A read is right, whatever is on the disk, exactly if it is straight. -/
theorem partitionRead_own_iff (parent : ParentDisk) (part : PartitionDevice) (offset size : UInt32)
    (buffer : Buf) :
    (∀ disk, part.Own parent offset.toNat disk
      (partitionRead parent part offset.toNat size.toNat buffer disk)) ↔
        part.Straight parent offset.toNat size.toNat := by
  generalize offset.toNat = offset
  have hsize := size.toNat_lt
  revert hsize
  generalize size.toNat = size
  intro hsize
  have hread := @partitionRead_commands part parent offset size hsize buffer
  constructor
  · intro hown
    have hplace : ∀ p ∈ part.commands parent offset size,
        u32 (part.firstLba * 512 + offset + p.1) =
          part.firstLba * parent.blockSize + offset + p.1 := by
      intro p hp
      refine eq_of_forall_disk fun disk => ?_
      obtain ⟨hpos, -, hle, hbytes⟩ := (hread disk).2 p hp
      rw [← (hown disk p.1 (by omega)).2]
      exact (hbytes 0 hpos).symm
    have hstraight : ∀ p ∈ part.commands parent offset size,
        part.firstLba * 512 + offset + p.1 < 2 ^ 32 := by
      intro p hp
      have hat := hplace p hp
      have hstart := commands_start hp
      generalize part.firstLba * parent.blockSize = own at hat
      by_contra hpast
      rw [u32, Nat.mod_eq_sub_mod (by omega), Nat.mod_eq_of_lt (by omega)] at hat
      omega
    refine ⟨hstraight, ?_⟩
    by_cases hblock : parent.blockSize = 512
    · exact .inl hblock
    refine .inr fun p hp => ⟨?_, ?_⟩
    · have hat := hplace p hp
      rw [u32_of_lt (hstraight p hp), Nat.add_assoc, Nat.add_assoc, Nat.add_right_cancel_iff] at hat
      by_contra hne
      exact hblock (Nat.eq_of_mul_eq_mul_left (Nat.pos_of_ne_zero hne) hat).symm
    · obtain ⟨hpos, -, hle, -⟩ := (hread buffer).2 p hp
      have hlast := (hown buffer (p.1 + p.2 - 1) (by omega)).1
      omega
  · rintro ⟨hstraight, hblock⟩ disk j hj
    obtain ⟨p, hp, hlo, hhi⟩ := (hread disk).1 j hj
    obtain ⟨hpos, hle, -, hbytes⟩ := (hread disk).2 p hp
    have hbyte := hbytes (j - p.1) (by omega)
    have hclamp : part.clamp offset size ≤ part.sectors * 512 - offset := Nat.min_le_right _ _
    rw [u32_of_lt (hstraight p hp), show p.1 + (j - p.1) = j by omega] at hbyte
    rw [hbyte, show part.firstLba * 512 + offset + p.1 + (j - p.1) =
      part.firstLba * 512 + offset + j by omega]
    rcases hblock with hblock | hfirst
    · rw [hblock]
      exact ⟨by omega, rfl⟩
    · obtain ⟨hzero, hend⟩ := hfirst p hp
      rw [hzero, Nat.zero_mul, Nat.zero_mul]
      exact ⟨by omega, rfl⟩

/-- A disk of a little more than 4 GiB with one partition that starts in the last sector below. -/
def wideDisk : Buf := fun x =>
  if x = 0 then 0xEB
  else if x = 450 then 0x0C
  else if x = 454 ∨ x = 455 then 0xFF
  else if x = 456 then 0x7F
  else if x = 458 then 8
  else if x = 510 then 0x55
  else if x = 511 then 0xAA
  else 0

def wideParent : ParentDisk := .ata (2 ^ 23 + 7)

def ataScan : ScanEnv := ⟨[0x61, 0x74, 0x61, 0x30], fun _ => true, 15, fun _ => 0⟩

/-- The partition is accepted, and the second part of a read of 600 bytes from its start comes from
the first sector of the disk. -/
theorem partitionRead_wraps :
    ∃ part ∈ partitionScanMbr wideParent ataScan wideDisk, part.firstLba = 2 ^ 23 - 1 ∧
      part.sectors = 8 ∧ ¬part.Own wideParent 0 wideDisk
        (partitionRead wideParent part 0 600 (fun _ => 0) wideDisk) := by
  refine ⟨⟨2 ^ 23 - 1, 8, 0x0C, [0x61, 0x74, 0x61, 0x30, 0x70, 0x31]⟩, by decide +kernel, rfl, rfl,
    fun hown => ?_⟩
  have hbyte := (hown 512 (by decide +kernel)).2
  exact absurd hbyte (by decide +kernel)

end PartitionDevice

end MicroK
