import MicroK.BlockDevice

/-!
# The block drivers for ATA and USB disks

The drivers turn a request for bytes into commands for sectors. A part of a sector is read as a
whole, changed and written back. The ATA driver moves runs of up to 255 whole sectors with one
command; the drivers behind the UHCI and EHCI controllers move one block at a time and are the same
apart from the controller: one chain of UHCI descriptors carries at most 64 packets, and the driver
refuses a block that needs more. A device sees the registers, or the command block, that the driver
makes for it. What a failed read may have left in the buffer is not modelled.
-/

namespace MicroK.Transfer

variable {σ : Type} (blockSize blockCount : ℕ)

/-- A command gets the absolute offset, the number of bytes left and the number of bytes done. It
returns how many bytes it has moved, or nothing when it failed. -/
def loop (command : ℕ → ℕ → ℕ → σ → Option ℕ × σ) (offset size : ℕ) : ℕ → ℕ → σ → ℕ × σ
  | 0, done, s => (done, s)
  | fuel + 1, done, s =>
    if done < size then
      if blockCount ≤ u32 (offset + done) / blockSize then (done, s)
      else
        match command (u32 (offset + done)) (size - done) done s with
        | (none, s) => (done, s)
        | (some n, s) => loop command offset size fuel (done + n) s
    else (done, s)

/-- How many bytes the command at an absolute offset moves when it does not fail. -/
structure Plan where
  length : ℕ → ℕ → ℕ
  pos : ∀ {absolute left}, absolute / blockSize < blockCount → 0 < left → 0 < length absolute left
  le_left : ∀ {absolute left}, length absolute left ≤ left
  inside : ∀ {absolute left}, absolute / blockSize < blockCount →
    absolute + length absolute left ≤ blockSize * blockCount

variable {blockSize blockCount} (plan : Plan blockSize blockCount) (offset size : ℕ)

namespace Plan

/-- The commands of a request: how many bytes are done before each, and how many it moves. -/
def pieces : ℕ → ℕ → List (ℕ × ℕ)
  | 0, _ => []
  | fuel + 1, done =>
    if done < size ∧ u32 (offset + done) / blockSize < blockCount then
      (done, plan.length (u32 (offset + done)) (size - done)) ::
        pieces fuel (done + plan.length (u32 (offset + done)) (size - done))
    else []

def total : ℕ → ℕ → ℕ
  | 0, done => done
  | fuel + 1, done =>
    if done < size ∧ u32 (offset + done) / blockSize < blockCount then
      total fuel (done + plan.length (u32 (offset + done)) (size - done))
    else done

variable {plan offset size} {fuel done : ℕ}

theorem le_total : done ≤ plan.total offset size fuel done := by
  induction fuel generalizing done with
  | zero => exact le_rfl
  | succ fuel ih =>
    rw [total]
    split_ifs
    · exact (Nat.le_add_right _ _).trans ih
    · exact le_rfl

theorem mem_pieces {p : ℕ × ℕ} (hp : p ∈ plan.pieces offset size fuel done) :
    done ≤ p.1 ∧ p.1 < size ∧ u32 (offset + p.1) / blockSize < blockCount ∧
      p.2 = plan.length (u32 (offset + p.1)) (size - p.1) ∧
      p.1 + p.2 ≤ plan.total offset size fuel done := by
  induction fuel generalizing done with
  | zero => cases hp
  | succ fuel ih =>
    rw [pieces] at hp
    rw [total]
    split_ifs at hp ⊢ with h
    · rcases List.mem_cons.mp hp with rfl | hp
      · exact ⟨le_rfl, h.1, h.2, rfl, le_total⟩
      · obtain ⟨hle, hrest⟩ := ih hp
        exact ⟨(Nat.le_add_right _ _).trans hle, hrest⟩
    · cases hp

theorem pieces_pairwise :
    (plan.pieces offset size fuel done).Pairwise fun p q => p.1 + p.2 ≤ q.1 := by
  induction fuel generalizing done with
  | zero => exact List.Pairwise.nil
  | succ fuel ih =>
    rw [pieces]
    split_ifs with h
    · exact List.pairwise_cons.mpr ⟨fun q hq => (mem_pieces hq).1, ih⟩
    · exact List.Pairwise.nil

theorem disjoint_pieces {p q : ℕ × ℕ} (hp : p ∈ plan.pieces offset size fuel done)
    (hq : q ∈ plan.pieces offset size fuel done) (hne : p ≠ q) :
    p.1 + p.2 ≤ q.1 ∨ q.1 + q.2 ≤ p.1 := by
  let R : ℕ × ℕ → ℕ × ℕ → Prop := fun p q => p.1 + p.2 ≤ q.1 ∨ q.1 + q.2 ≤ p.1
  have hsymm : Std.Symm R := ⟨fun _ _ => Or.symm⟩
  exact (pieces_pairwise.imp (S := R) .inl).forall hp hq hne

theorem total_le (hdone : done ≤ size) : plan.total offset size fuel done ≤ size := by
  induction fuel generalizing done with
  | zero => exact hdone
  | succ fuel ih =>
    have hleft : plan.length (u32 (offset + done)) (size - done) ≤ size - done := plan.le_left
    rw [total]
    split_ifs with h
    · exact ih (by omega)
    · exact hdone

theorem exists_piece {j : ℕ} (hlo : done ≤ j) (hhi : j < plan.total offset size fuel done) :
    ∃ p ∈ plan.pieces offset size fuel done, p.1 ≤ j ∧ j < p.1 + p.2 := by
  induction fuel generalizing done with
  | zero => exact absurd hhi (by rw [total]; omega)
  | succ fuel ih =>
    rw [pieces]
    rw [total] at hhi
    split_ifs at hhi ⊢ with h
    · rcases Nat.lt_or_ge j (done + plan.length (u32 (offset + done)) (size - done)) with hj | hj
      · exact ⟨_, List.mem_cons_self .., hlo, hj⟩
      · obtain ⟨p, hp, hjp⟩ := ih hj hhi
        exact ⟨p, .tail _ hp, hjp⟩
    · omega

end Plan

/-- The commands of a request keep a property when none of them fails. -/
theorem loop_rule {command : ℕ → ℕ → ℕ → σ → Option ℕ × σ} {P : ℕ → σ → Prop}
    {plan : Plan blockSize blockCount} {offset size fuel done : ℕ} {s : σ} (hs : P done s)
    (hstep : ∀ p ∈ plan.pieces offset size fuel done, ∀ s, P p.1 s → ∃ s',
      command (u32 (offset + p.1)) (size - p.1) p.1 s = (some p.2, s') ∧ P (p.1 + p.2) s') :
    (loop blockSize blockCount command offset size fuel done s).1 =
        plan.total offset size fuel done ∧
      P (plan.total offset size fuel done)
        (loop blockSize blockCount command offset size fuel done s).2 := by
  induction fuel generalizing done s with
  | zero => exact ⟨rfl, hs⟩
  | succ fuel ih =>
    rw [Plan.pieces] at hstep
    rw [Plan.total, loop]
    by_cases hlt : done < size
    · by_cases hin : u32 (offset + done) / blockSize < blockCount
      · have hboth : done < size ∧ u32 (offset + done) / blockSize < blockCount := ⟨hlt, hin⟩
        rw [if_pos hboth] at hstep
        obtain ⟨s', hcommand, hs'⟩ := hstep _ (List.mem_cons_self ..) s hs
        rw [if_pos hlt, if_neg (Nat.not_le.mpr hin), hcommand, if_pos hboth]
        exact ih hs' fun p hp => hstep p (.tail _ hp)
      · rw [if_pos hlt, if_pos (by omega), if_neg (by tauto)]
        exact ⟨rfl, hs⟩
    · rw [if_neg hlt, if_neg (by tauto)]
      exact ⟨rfl, hs⟩

end MicroK.Transfer

namespace MicroK

structure SectorDevice (σ κ : Type) where
  read : κ → σ → Option Buf × σ
  write : κ → Buf → σ → Bool × σ

section

structure AtaRegisters where
  select : UInt8
  secCount : UInt8
  lba0 : UInt8
  lba1 : UInt8
  lba2 : UInt8
deriving DecidableEq, Repr

def ataRegisters (lba count : ℕ) : AtaRegisters where
  select := 0xE0 ||| UInt8.ofNat (lba / 2 ^ 24 % 16)
  secCount := UInt8.ofNat count
  lba0 := UInt8.ofNat lba
  lba1 := UInt8.ofNat (lba / 2 ^ 8)
  lba2 := UInt8.ofNat (lba / 2 ^ 16)

variable {σ : Type} (dev : SectorDevice σ AtaRegisters) (sectors : ℕ)

def ataReadSectors (lba count : ℕ) (s : σ) : Option Buf × σ :=
  if count = 0 ∨ 255 < count then (none, s) else dev.read (ataRegisters lba count) s

def ataBatch (absolute left : ℕ) : ℕ := min (min (left / 512) (sectors - absolute / 512)) 255

def ataReadCommand (absolute left done : ℕ) (x : σ × Buf) : Option ℕ × (σ × Buf) :=
  let lba := absolute / 512
  if absolute % 512 = 0 ∧ 512 ≤ left then
    let batch := ataBatch sectors absolute left
    match ataReadSectors dev lba batch x.1 with
    | (none, s) => (none, (s, x.2))
    | (some data, s) => (some (batch * 512), (s, x.2.copyAt done (batch * 512) data))
  else
    let chunk := min (512 - absolute % 512) left
    match ataReadSectors dev lba 1 x.1 with
    | (none, s) => (none, (s, x.2))
    | (some sector, s) => (some chunk, (s, x.2.copyAt done chunk (sector.from (absolute % 512))))

def ataBlockRead (offset size : ℕ) (buffer : Buf) (s : σ) : ℕ × (σ × Buf) :=
  Transfer.loop 512 sectors (ataReadCommand dev sectors) offset size size 0 (s, buffer)

end

variable (opcode : UInt8)

section

/-- The registered mass storage device, as the result of READ CAPACITY lets it be, with the packet
sizes of its two bulk endpoints. -/
structure MsdDevice where
  blockSize : ℕ
  blockCount : ℕ
  bulkInMps : ℕ
  bulkOutMps : ℕ
  blockSize_pos : 0 < blockSize
  blockSize_le : blockSize ≤ 4096
  blockCount_lt : blockCount < 2 ^ 32

/-- An endpoint descriptor that names no packet size stands for packets of 64 bytes. -/
def packetSize (mps : ℕ) : ℕ := if mps = 0 then 64 else mps

/-- Whether `uhci_bulk_transfer` takes so many bytes: its chain has 64 transfer descriptors. -/
def uhciBulkTransfer (mps len : ℕ) : Bool := (len + packetSize mps - 1) / packetSize mps ≤ 64

variable (lba count : ℕ)

/-- The command block of a SCSI command with a block address and a block count. -/
def scsiCommand : List UInt8 :=
  [opcode, 0, UInt8.ofNat (lba / 2 ^ 24), UInt8.ofNat (lba / 2 ^ 16), UInt8.ofNat (lba / 2 ^ 8),
    UInt8.ofNat lba, 0, UInt8.ofNat (count / 2 ^ 8), UInt8.ofNat count, 0]

def msdRead10 : List UInt8 := scsiCommand 0x28 lba count

variable {σ : Type} (dev : SectorDevice σ (List UInt8)) (m : MsdDevice)

def msdReadCommand (absolute left done : ℕ) (x : σ × Buf) : Option ℕ × (σ × Buf) :=
  let chunk := min (m.blockSize - absolute % m.blockSize) left
  match dev.read (msdRead10 (absolute / m.blockSize) 1) x.1 with
  | (none, s) => (none, (s, x.2))
  | (some sector, s) =>
    (some chunk, (s, x.2.copyAt done chunk (sector.from (absolute % m.blockSize))))

def msdBlockRead (offset size : ℕ) (buffer : Buf) (s : σ) : ℕ × (σ × Buf) :=
  Transfer.loop m.blockSize m.blockCount (msdReadCommand dev m) offset size size 0 (s, buffer)

/-- The device behind the UHCI controller. A refused data stage ends the command. -/
def uhciMsdCommand : SectorDevice σ (List UInt8) where
  read cdb s := if uhciBulkTransfer m.bulkInMps m.blockSize then dev.read cdb s else (none, s)
  write cdb data s :=
    if uhciBulkTransfer m.bulkOutMps m.blockSize then dev.write cdb data s else (false, s)

def uhciMsdBlockRead : ℕ → ℕ → Buf → σ → ℕ × (σ × Buf) := msdBlockRead (uhciMsdCommand dev m) m

def ehciMsdBlockRead : ℕ → ℕ → Buf → σ → ℕ × (σ × Buf) := msdBlockRead dev m

end

def AtaRegisters.lba (r : AtaRegisters) : ℕ :=
  r.lba0.toNat + 2 ^ 8 * r.lba1.toNat + 2 ^ 16 * r.lba2.toNat + 2 ^ 24 * (r.select &&& 0xF).toNat

/-- A count of zero stands for 256 sectors. -/
def AtaRegisters.count (r : AtaRegisters) : ℕ :=
  if r.secCount = 0 then 256 else r.secCount.toNat

/-- The drive that keeps every sector and refuses the sectors it does not have. -/
def ataDrive (sectors : ℕ) : SectorDevice Buf AtaRegisters where
  read r disk := (if r.lba + r.count ≤ sectors then some (disk.from (512 * r.lba)) else none, disk)
  write r data disk :=
    if r.lba + r.count ≤ sectors then (true, disk.copyAt (512 * r.lba) (512 * r.count) data)
    else (false, disk)

def scsiLba (cdb : List UInt8) : ℕ :=
  2 ^ 24 * (cdb.getD 2 0).toNat + 2 ^ 16 * (cdb.getD 3 0).toNat + 2 ^ 8 * (cdb.getD 4 0).toNat +
    (cdb.getD 5 0).toNat

def scsiCount (cdb : List UInt8) : ℕ := 2 ^ 8 * (cdb.getD 7 0).toNat + (cdb.getD 8 0).toNat

def scsiDisk (blockSize blocks : ℕ) : SectorDevice Buf (List UInt8) where
  read cdb disk :=
    (if cdb.head? = some 0x28 ∧ scsiLba cdb + scsiCount cdb ≤ blocks
      then some (disk.from (blockSize * scsiLba cdb)) else none, disk)
  write cdb data disk :=
    if cdb.head? = some 0x2A ∧ scsiLba cdb + scsiCount cdb ≤ blocks
    then (true, disk.copyAt (blockSize * scsiLba cdb) (blockSize * scsiCount cdb) data)
    else (false, disk)

theorem lba_ataRegisters {lba : ℕ} (hlba : lba < 2 ^ 28) (count : ℕ) :
    (ataRegisters lba count).lba = lba := by
  have hselect : ∀ k < 16, ((0xE0 ||| UInt8.ofNat k) &&& 0xF).toNat = k := by decide
  rw [AtaRegisters.lba, ataRegisters, hselect _ (Nat.mod_lt _ (by decide))]
  simp only [UInt8.toNat_ofNat']
  omega

theorem count_ataRegisters (lba : ℕ) {count : ℕ} (hpos : 0 < count) (hle : count ≤ 255) :
    (ataRegisters lba count).count = count := by
  have hcount : (UInt8.ofNat count).toNat = count := by
    rw [UInt8.toNat_ofNat']
    omega
  have hne : UInt8.ofNat count ≠ 0 := fun h => by
    rw [h] at hcount
    exact absurd hcount (by simp; omega)
  rw [AtaRegisters.count, ataRegisters, if_neg hne, hcount]

theorem scsiLba_scsiCommand {lba : ℕ} (hlba : lba < 2 ^ 32) (count : ℕ) :
    scsiLba (scsiCommand opcode lba count) = lba := by
  simp only [scsiLba, scsiCommand, List.getD_cons_succ, List.getD_cons_zero, UInt8.toNat_ofNat']
  omega

theorem scsiCount_scsiCommand (lba : ℕ) {count : ℕ} (hcount : count < 2 ^ 16) :
    scsiCount (scsiCommand opcode lba count) = count := by
  simp only [scsiCount, scsiCommand, List.getD_cons_succ, List.getD_cons_zero, UInt8.toNat_ofNat']
  omega

end MicroK
