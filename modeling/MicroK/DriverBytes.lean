import MicroK.BlockDrivers

/-!
# Block drivers as disks of bytes

The drivers split a request into commands for whole blocks, or for parts of one. The commands
together move the bytes of the request, up to the end of the disk, as long as the bus carries them.
-/

namespace MicroK

open Buf Nat

theorem Buf.from_from (b : Buf) (i j : ℕ) : (b.from i).from j = b.from (i + j) :=
  funext fun k => congrArg b (add_assoc i j k).symm

variable (b src : Buf)

@[simp] theorem Buf.copyAt_zero (off : ℕ) : b.copyAt off 0 src = b :=
  funext fun _ => copyAt_of_not_mem (by omega)

namespace Transfer

variable {blockSize blockCount : ℕ} (plan : Plan blockSize blockCount)

def Plan.Reads (command : ℕ → ℕ → ℕ → Buf × Buf → Option ℕ × (Buf × Buf)) : Prop :=
  ∀ {absolute left done : ℕ} {disk out : Buf}, absolute < 2 ^ 32 →
    absolute / blockSize < blockCount → 0 < left →
    command absolute left done (disk, out) = (some (plan.length absolute left),
      (disk, out.copyAt done (plan.length absolute left) (disk.from absolute)))

def Plan.Writes (command : Buf → ℕ → ℕ → ℕ → Buf → Option ℕ × Buf) : Prop :=
  ∀ {absolute left done : ℕ} {buffer disk : Buf}, absolute < 2 ^ 32 →
    absolute / blockSize < blockCount → 0 < left →
    command buffer absolute left done disk = (some (plan.length absolute left),
      disk.copyAt absolute (plan.length absolute left) (buffer.from done))

variable {plan} {offset size : ℕ} {command : ℕ → ℕ → ℕ → Buf × Buf → Option ℕ × (Buf × Buf)}

theorem Plan.Reads.loop_pieces (hreads : plan.Reads command) (offset size : ℕ) (buffer disk : Buf) :
    (loop blockSize blockCount command offset size size 0 (disk, buffer)).1 =
        plan.total offset size size 0 ∧ ∀ p ∈ plan.pieces offset size size 0, ∀ k < p.2,
        (loop blockSize blockCount command offset size size 0 (disk, buffer)).2.2 (p.1 + k) =
          disk (u32 (offset + p.1) + k) := by
  let P : ℕ → Buf × Buf → Prop := fun done x => x.1 = disk ∧
    ∀ p ∈ plan.pieces offset size size 0, p.1 + p.2 ≤ done → ∀ k < p.2,
      x.2 (p.1 + k) = disk (u32 (offset + p.1) + k)
  have hstart : P 0 (disk, buffer) := ⟨rfl, fun p _ hp k hk => by omega⟩
  have hstep : ∀ q ∈ plan.pieces offset size size 0, ∀ x, P q.1 x → ∃ x',
      command (u32 (offset + q.1)) (size - q.1) q.1 x = (some q.2, x') ∧ P (q.1 + q.2) x' := by
    rintro q hq ⟨d, out⟩ ⟨rfl, hout⟩
    obtain ⟨-, hd, hin, hn, -⟩ := Plan.mem_pieces hq
    refine ⟨(d, out.copyAt q.1 q.2 (d.from (u32 (offset + q.1)))), ?_, rfl, fun p hp hle k hk => ?_⟩
    · rw [hreads (u32_lt _) hin (Nat.sub_pos_of_lt hd), ← hn]
    dsimp only
    by_cases hpq : p = q
    · subst hpq
      rw [copyAt_of_mem (by omega) (by omega), Nat.add_sub_cancel_left, Buf.from]
    · rcases Plan.disjoint_pieces hp hq hpq with hbefore | hafter
      · rw [copyAt_of_not_mem (by omega)]
        exact hout p hp hbefore k hk
      · omega
  obtain ⟨htotal, -, hpieces⟩ := loop_rule hstart hstep
  exact ⟨htotal, fun p hp => hpieces p hp (Plan.mem_pieces hp).2.2.2.2⟩

end Transfer

section

variable {sectors : ℕ}

theorem ataReadSectors_ataDrive {lba count : ℕ} (hlba : lba < 2 ^ 28) (hpos : 0 < count)
    (hle : count ≤ 255) (hin : lba + count ≤ sectors) (disk : Buf) :
    ataReadSectors (ataDrive sectors) lba count disk = (some (disk.from (512 * lba)), disk) := by
  rw [ataReadSectors, if_neg (by omega)]
  simp only [ataDrive, lba_ataRegisters hlba, count_ataRegisters lba hpos hle, if_pos hin]

theorem ataBatch_spec {absolute left : ℕ} (hin : absolute / 512 < sectors) (hleft : 512 ≤ left) :
    0 < ataBatch sectors absolute left ∧ ataBatch sectors absolute left ≤ 255 ∧
      absolute / 512 + ataBatch sectors absolute left ≤ sectors ∧
      ataBatch sectors absolute left * 512 ≤ left := by
  unfold ataBatch
  omega

def ataPlan (sectors : ℕ) : Transfer.Plan 512 sectors where
  length absolute left :=
    if absolute % 512 = 0 ∧ 512 ≤ left then ataBatch sectors absolute left * 512
    else min (512 - absolute % 512) left
  pos := by
    intro absolute left hin hleft
    split_ifs with hwhole
    · exact Nat.mul_pos (ataBatch_spec hin hwhole.2).1 (by decide)
    · omega
  le_left := by
    intro absolute left
    split_ifs with hwhole
    · exact (Nat.mul_le_mul_right 512 ((Nat.min_le_left _ _).trans (Nat.min_le_left _ _))).trans
        (Nat.div_mul_le_self left 512)
    · exact Nat.min_le_right _ _
  inside := by
    intro absolute left hin
    split_ifs with hwhole
    · have hbatch := (ataBatch_spec hin hwhole.2).2.2.1
      omega
    · omega

theorem ataPlan_reads :
    (ataPlan sectors).Reads (ataReadCommand (ataDrive sectors) sectors) := by
  intro absolute left done disk out habsolute hin hleft
  have hlba : absolute / 512 < 2 ^ 28 := by omega
  simp only [ataReadCommand, ataPlan]
  split_ifs with hwhole
  · obtain ⟨hpos, hle, hend, -⟩ := ataBatch_spec hin hwhole.2
    rw [ataReadSectors_ataDrive hlba hpos hle hend]
    rw [show 512 * (absolute / 512) = absolute by omega]
  · rw [ataReadSectors_ataDrive hlba one_pos (by decide) hin]
    dsimp only
    rw [from_from, div_add_mod]

end

section

variable {m : MsdDevice}

theorem read_scsiDisk {lba : ℕ} (hlba : lba < 2 ^ 32) (hin : lba < m.blockCount) (disk : Buf) :
    (scsiDisk m.blockSize m.blockCount).read (msdRead10 lba 1) disk =
      (some (disk.from (m.blockSize * lba)), disk) := by
  simp only [scsiDisk, msdRead10, scsiLba_scsiCommand _ hlba]
  rw [scsiCount_scsiCommand _ _ (by decide), if_pos ⟨rfl, hin⟩]

theorem end_of_block_le {size blocks absolute : ℕ} (hsize : 0 < size)
    (hin : absolute / size < blocks) : absolute + (size - absolute % size) ≤ size * blocks := by
  have hstep : size * (absolute / size + 1) ≤ size * blocks := mul_le_mul_left _ hin
  have hdiv := div_add_mod absolute size
  have hmod := mod_lt absolute hsize
  rw [mul_add, mul_one] at hstep
  omega

def msdPlan (m : MsdDevice) : Transfer.Plan m.blockSize m.blockCount where
  length absolute left := min (m.blockSize - absolute % m.blockSize) left
  pos := by
    intro absolute left _ hleft
    have hmod := Nat.mod_lt absolute m.blockSize_pos
    omega
  le_left := Nat.min_le_right _ _
  inside := fun hin => (Nat.add_le_add_left (Nat.min_le_left _ _) _).trans
    (end_of_block_le m.blockSize_pos hin)

theorem msdPlan_reads :
    (msdPlan m).Reads (msdReadCommand (scsiDisk m.blockSize m.blockCount) m) := by
  intro absolute left done disk out habsolute hin hleft
  have hlba := (div_le_self absolute m.blockSize).trans_lt habsolute
  rw [msdReadCommand, read_scsiDisk hlba hin]
  dsimp only [msdPlan]
  rw [from_from, div_add_mod]

end

section

variable {mps len : ℕ}

variable {σ : Type} {dev : SectorDevice σ (List UInt8)} {m : MsdDevice}

theorem msdReadCommand_refused (h : uhciBulkTransfer m.bulkInMps m.blockSize = false)
    (absolute left done : ℕ) (x : σ × Buf) :
    msdReadCommand (uhciMsdCommand dev m) m absolute left done x = (none, x) := by
  simp [msdReadCommand, uhciMsdCommand, h]

end

namespace Transfer

variable {σ : Type} {blockSize blockCount : ℕ} {command : ℕ → ℕ → ℕ → σ → Option ℕ × σ}

theorem loop_of_refused (hrefused : ∀ absolute left done s, (command absolute left done s).1 = none)
    (offset size fuel done : ℕ) (s : σ) :
    (loop blockSize blockCount command offset size fuel done s).1 = done := by
  cases fuel with
  | zero => rfl
  | succ fuel =>
    rw [loop]
    split_ifs with hlt hend
    · rfl
    · have hnone := hrefused (u32 (offset + done)) (size - done) done s
      generalize command (u32 (offset + done)) (size - done) done s = result at hnone
      rcases result with ⟨_ | n, s'⟩
      · rfl
      · cases hnone
    · rfl

end Transfer

end MicroK
