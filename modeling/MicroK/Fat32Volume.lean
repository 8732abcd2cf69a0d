import Mathlib
import MicroK.Fat32Runs

/-!
# Where the clusters of a volume lie

All offsets are computed in 32 bits and no access is refused. So the clusters of a volume and the
entries of its table are apart from each other exactly if the whole volume fits below 4 GiB.
-/

namespace MicroK.Fat32

open Nat

/-- A volume: a boot sector that is accepted, and the number of data clusters. Each of them has an
entry in the table, and its number is not taken for an end of chain. -/
structure Volume where
  bytes : Buf
  clusters : ℕ
  accepted : (BootSector.ofBytes bytes).accepted = true
  clusters_pos : 0 < clusters
  clusters_le : clusters + 2 ≤ (BootSector.ofBytes bytes).sectorsPerFat32 * 128
  clusters_valid : clusters + 2 ≤ 0x0FFFFFF8

namespace Volume

variable (v : Volume)

def bpb : BootSector := BootSector.ofBytes v.bytes

def mount : Mount := Mount.ofBootSector v.bpb

def Exists (c : ℕ) : Prop := 2 ≤ c ∧ c < 2 + v.clusters

def entries : ℕ := v.bpb.sectorsPerFat32 * 128

def dataStart : ℕ := v.bpb.reservedSectors + v.bpb.fatCount * v.bpb.sectorsPerFat32

def clusterStart (c : ℕ) : ℕ := (v.dataStart + (c - 2) * v.bpb.sectorsPerCluster) * 512

def tableArea : Set ℕ := {x | v.bpb.reservedSectors * 512 ≤ x ∧ x < v.dataStart * 512}

def clusterBytes (c : ℕ) : Set ℕ :=
  {x | ∃ j < v.mount.clusterSize, x = u32 (v.mount.clusterOffset c + j)}

def entryBytes (c : ℕ) : Set ℕ := {x | ∃ j < 4, x = u32 (v.mount.entryPos c + j)}

/-- Clusters are apart from each other and from the table, and entries are apart from each other.
A cluster or an entry that does not fit into 32-bit offsets is not read or written: `fat32_read` and
`fat32_write` of a file at the cluster return nothing, and an entry reads as the end of a chain. -/
structure Separate : Prop where
  clusters : ∀ {c c'}, v.Exists c → v.Exists c' → c ≠ c' →
    Disjoint (v.clusterBytes c) (v.clusterBytes c')
  outside : ∀ {c}, v.Exists c → Disjoint (v.clusterBytes c) v.tableArea
  entries : ∀ {c c'}, c < v.entries → c' < v.entries → c ≠ c' →
    Disjoint (v.entryBytes c) (v.entryBytes c')
  inside : ∀ {c}, c < v.entries → v.entryBytes c ⊆ v.tableArea
  clusterFails : ∀ {c}, v.Exists c → 2 ^ 32 < v.clusterStart c + v.mount.clusterSize →
    ∀ (env : Env Buf) (w : World Buf) (offset size : ℕ) (buffer : Buf),
      offset < v.mount.clusterSize →
      (read (diskFs true env v.mount) c offset size buffer w).1.1 = 0 ∧
        (write (diskFs true env v.mount) c offset size buffer w).1 = 0 ∧
        (write (diskFs true env v.mount) c offset size buffer w).2.dev = w.dev
  entryFails : ∀ {c}, c < v.entries → 2 ^ 32 < v.bpb.reservedSectors * 512 + 4 * c + 4 →
    ∀ (env : Env Buf) (w : World Buf) (value : ℕ),
      (getNextCluster (diskFs true env v.mount) c w).1 = 0x0FFFFFFF ∧
        (setCluster (diskFs true env v.mount) c value w).2.dev = w.dev

def Fits : Prop := (v.dataStart + v.clusters * v.bpb.sectorsPerCluster) * 512 ≤ 2 ^ 32

theorem geometry : 0 < v.bpb.sectorsPerCluster ∧ 0 < v.bpb.fatCount := by
  have hacc := v.accepted
  unfold BootSector.accepted at hacc
  split_ifs at hacc with h1 h2 h3 h4 h5 h6 h7 h8
  exact ⟨pos_of_ne_zero h5, pos_of_ne_zero h7⟩

theorem clusterSize_eq : v.mount.clusterSize = v.bpb.sectorsPerCluster * 512 := rfl

theorem table_le : v.bpb.reservedSectors * 512 + 4 * v.entries ≤ v.dataStart * 512 := by
  have hcopies : v.bpb.sectorsPerFat32 ≤ v.bpb.fatCount * v.bpb.sectorsPerFat32 :=
    Nat.le_mul_of_pos_left _ v.geometry.2
  unfold entries dataStart
  omega

theorem clusterStart_add {c c' : ℕ} (hc : 2 ≤ c) (hlt : c < c') :
    v.clusterStart c + v.mount.clusterSize ≤ v.clusterStart c' := by
  have hmul : (c - 2 + 1) * v.bpb.sectorsPerCluster ≤ (c' - 2) * v.bpb.sectorsPerCluster :=
    mul_le_mul_right _ (by omega)
  rw [add_mul, one_mul] at hmul
  rw [clusterSize_eq, clusterStart, clusterStart]
  omega

theorem clusterStart_end :
    v.clusterStart (2 + v.clusters) =
      (v.dataStart + v.clusters * v.bpb.sectorsPerCluster) * 512 := by
  rw [clusterStart, Nat.add_sub_cancel_left]

section

variable {v} (hfits : v.Fits)
include hfits

variable {c : ℕ}

theorem Fits.cluster_end (hc : v.Exists c) : v.clusterStart c + v.mount.clusterSize ≤ 2 ^ 32 :=
  (v.clusterStart_add hc.1 hc.2).trans (v.clusterStart_end.le.trans hfits)

theorem Fits.data_lt : v.dataStart * 512 < 2 ^ 32 := by
  have hpos : 0 < v.clusters * v.bpb.sectorsPerCluster :=
    mul_pos v.clusters_pos v.geometry.1
  unfold Fits at hfits
  omega

theorem Fits.dataStartLba_eq : v.mount.dataStartLba = v.dataStart := by
  have hlt := hfits.data_lt
  have hle : v.bpb.fatCount * v.bpb.sectorsPerFat32 ≤ v.dataStart := le_add_left _ _
  change u32 (v.bpb.reservedSectors + u32 (v.bpb.fatCount * v.bpb.sectorsPerFat32)) = _
  rw [u32_of_lt (n := v.bpb.fatCount * v.bpb.sectorsPerFat32) (by omega)]
  exact u32_of_lt (by unfold dataStart at *; omega)

theorem Fits.clusterOffset_eq (hc : v.Exists c) : v.mount.clusterOffset c = v.clusterStart c := by
  have hend := hfits.cluster_end hc
  have hpos := v.geometry.1
  rw [clusterSize_eq, clusterStart] at hend
  have hvalid := v.clusters_valid
  have hsub : sub32 c 2 = c - 2 := sub32_of_le hc.1 (by have := hc.2; omega)
  rw [Mount.clusterOffset, Mount.clusterToLba, hsub, hfits.dataStartLba_eq]
  change u32 (u32 (v.dataStart + u32 ((c - 2) * v.bpb.sectorsPerCluster)) * 512) = _
  rw [u32_of_lt (n := (c - 2) * v.bpb.sectorsPerCluster) (by omega),
    u32_of_lt (n := v.dataStart + _) (by omega), u32_of_lt (by omega), clusterStart]

theorem Fits.entryPos_eq (hc : c < v.entries) :
    v.mount.entryPos c = v.bpb.reservedSectors * 512 + 4 * c := by
  have hlt := hfits.data_lt
  have htable := v.table_le
  have hsplit := div_add_mod (c * 4) 512
  have hsector : (v.bpb.reservedSectors + c * 4 / 512) * 512 < 2 ^ 32 := by
    have hle := mul_div_le (c * 4) 512
    linarith
  change u32 (u32 (v.bpb.reservedSectors + u32 (c * 4) / 512) * 512) + u32 (c * 4) % 512 = _
  rw [u32_of_lt (n := c * 4) (by omega), u32_of_lt (n := v.bpb.reservedSectors + _) (by linarith),
    u32_of_lt hsector, add_mul, mul_comm (c * 4 / 512)]
  linarith

theorem Fits.mem_clusterBytes {c x : ℕ} (hc : v.Exists c) (hx : x ∈ v.clusterBytes c) :
    v.clusterStart c ≤ x ∧ x < v.clusterStart c + v.mount.clusterSize := by
  obtain ⟨j, hj, rfl⟩ := hx
  have hend := hfits.cluster_end hc
  rw [hfits.clusterOffset_eq hc, u32_of_lt (by omega)]
  omega

theorem Fits.mem_entryBytes {c x : ℕ} (hc : c < v.entries) (hx : x ∈ v.entryBytes c) :
    v.bpb.reservedSectors * 512 + 4 * c ≤ x ∧ x < v.bpb.reservedSectors * 512 + 4 * c + 4 := by
  obtain ⟨j, hj, rfl⟩ := hx
  have hlt := hfits.data_lt
  have htable := v.table_le
  rw [hfits.entryPos_eq hc, u32_of_lt (by linarith)]
  omega

theorem Fits.separate : v.Separate := by
  refine ⟨fun {c c'} hc hc' hne => ?_, fun {c} hc => ?_, fun {c c'} hc hc' hne => ?_,
    fun {c} hc x hx => ?_, fun {c} hc hpast => ?_, fun {c} hc hpast => ?_⟩
  · refine Set.disjoint_left.mpr fun x hx hx' => ?_
    have hin := hfits.mem_clusterBytes hc hx
    have hin' := hfits.mem_clusterBytes hc' hx'
    rcases lt_or_gt_of_ne hne with hlt | hgt
    · have hstep := v.clusterStart_add hc.1 hlt
      omega
    · have hstep := v.clusterStart_add hc'.1 hgt
      omega
  · refine Set.disjoint_left.mpr fun x hx hx' => ?_
    have hin := hfits.mem_clusterBytes hc hx
    have hdata : v.dataStart * 512 ≤ v.clusterStart c :=
      mul_le_mul_right 512 (le_add_right _ _)
    exact absurd hx'.2 (by omega)
  · refine Set.disjoint_left.mpr fun x hx hx' => ?_
    have hin := hfits.mem_entryBytes hc hx
    have hin' := hfits.mem_entryBytes hc' hx'
    omega
  · have hin := hfits.mem_entryBytes hc hx
    have htable := v.table_le
    exact ⟨(le_add_right _ _).trans hin.1, by linarith [hin.2]⟩
  · exact absurd (hfits.cluster_end hc) (not_le.mpr hpast)
  · have hlt := hfits.data_lt
    have htable := v.table_le
    linarith

end

theorem read_one {c : ℕ} (hc : v.Exists c) (w : World Buf) (buffer : Buf) :
    (read (diskFs true plainEnv v.mount) c 0 1 buffer w).1.1 = 1 := by
  have hvalid : validCluster c = true := by
    have hlt := v.clusters_valid
    exact validCluster_iff.mpr ⟨hc.1, by have := hc.2; omega⟩
  have hpos : 0 < v.mount.clusterSize := Nat.mul_pos v.geometry.1 (by decide)
  have hchunk : min (v.mount.clusterSize - 0 % v.mount.clusterSize) (1 - 0) = 1 := by
    rw [Nat.zero_mod]
    omega
  simp only [read, hvalid, if_true, Nat.zero_div, skipClusters, Io.bind_apply, Io.pure_apply,
    kmallocBuf, diskFs_env, plainEnv, readLoop, Nat.one_pos, and_self, vfsReadDevice, diskFs_dev,
    diskDevice, diskFs_mount, hchunk]
  rfl

/-- The clusters and the table entries of a volume are apart, and what does not fit is refused,
exactly if everything fits. -/
theorem separate_iff (v : Volume) : v.Separate ↔ v.Fits := by
  refine ⟨fun hsep => ?_, Fits.separate⟩
  by_contra hfits
  have hpos := v.clusters_pos
  have hlast : v.Exists (1 + v.clusters) := ⟨by omega, by omega⟩
  have hpast : 2 ^ 32 < v.clusterStart (1 + v.clusters) + v.mount.clusterSize := by
    have hend : v.clusterStart (1 + v.clusters) + v.mount.clusterSize =
        (v.dataStart + v.clusters * v.bpb.sectorsPerCluster) * 512 := by
      obtain ⟨n, hn⟩ : ∃ n, v.clusters = n + 1 := ⟨v.clusters - 1, by omega⟩
      rw [clusterStart, clusterSize_eq, hn, show 1 + (n + 1) - 2 = n by omega, Nat.add_mul n,
        Nat.one_mul, ← Nat.add_assoc, ← Nat.add_mul]
    rw [hend]
    exact Nat.lt_of_not_le hfits
  have hzero := (hsep.clusterFails hlast hpast plainEnv (bootWorld fun _ => 0) 0 1 (fun _ => 0)
    (Nat.mul_pos v.geometry.1 (by decide))).1
  rw [v.read_one hlast] at hzero
  exact absurd hzero (by decide)

/-- A volume of a little more than 4 GiB with clusters of 4 KiB. -/
def wideVolume : Volume where
  bytes := fun x =>
    if x = 12 then 2
    else if x = 13 then 8
    else if x = 14 then 32
    else if x = 16 then 2
    else if x = 36 then 8
    else if x = 37 then 32
    else if x = 44 then 2
    else if x = 66 then 0x29
    else if x = 510 then 0x55
    else if x = 511 then 0xAA
    else 0
  clusters := 1049598
  accepted := by decide +kernel
  clusters_pos := by decide
  clusters_le := by decide +kernel
  clusters_valid := by decide

/-- The place of cluster 1046528 wraps around to the first sector of the table. -/
theorem wideVolume_overlap : ¬wideVolume.Separate := by
  intro hsep
  have hin : (16384 : ℕ) ∈ wideVolume.clusterBytes 1046528 :=
    ⟨0, by decide +kernel, by decide +kernel⟩
  have htable : (16384 : ℕ) ∈ wideVolume.tableArea := ⟨by decide +kernel, by decide +kernel⟩
  exact Set.disjoint_left.mp (hsep.outside ⟨by decide, by decide⟩) hin htable

end Volume

end MicroK.Fat32
