import MicroK.MountPointers
import MicroK.ExtCommands

/-!
# Device offsets of the ext driver

Where the layout of a volume puts an item, in unbounded numbers, and when the driver looks there.
The offset of a group descriptor is computed in 32 bits and wraps, an inode may lie across the end
of the 32-bit range, and a block size above 64 KiB is taken for 64 KiB.
-/

namespace MicroK.Ext

open Checked Total

def Superblock.layoutBlockSize (sb : Superblock) : ℕ := 1024 * 2 ^ sb.logBlockSize

/-- The group descriptors start in the block after the superblock. -/
def layoutOffset (sb : Superblock) : Item → ℕ
  | .bootSector => 0
  | .superblock => 1024
  | .group g => (1024 / sb.layoutBlockSize + 1) * sb.layoutBlockSize + 32 * g
  | .inode table index => table * sb.layoutBlockSize + index * sb.mountedInodeSize
  | .block b => b * sb.layoutBlockSize

/-- The access is where the layout puts the item, and all of it is below `2 ^ 32`. -/
def Exact (sb : Superblock) (a : Access) : Prop :=
  a.offset = layoutOffset sb a.item ∧ a.offset + a.size ≤ 2 ^ 32

instance (sb : Superblock) : DecidablePred (Exact sb) :=
  fun _ => inferInstanceAs (Decidable (_ ∧ _))

/-- The item of an access is where the driver can reach it. -/
def InReach (sb : Superblock) (a : Access) : Prop :=
  match a.item with
  | .bootSector | .superblock => True
  | .group _ => sb.logBlockSize ≤ 6 ∧ layoutOffset sb a.item + 32 ≤ 2 ^ 32
  | .inode table _ =>
    (sb.logBlockSize ≤ 6 ∨ table = 0) ∧ layoutOffset sb a.item + sizeofInode ≤ 2 ^ 32
  | .block b => sb.logBlockSize ≤ 6 ∨ b = 0

variable {sb : Superblock}

theorem Superblock.blockSize_eq_layout (h : sb.logBlockSize ≤ 6) :
    sb.blockSize = sb.layoutBlockSize := by
  rw [sb.blockSize_eq, min_eq_left h, layoutBlockSize]

theorem Superblock.blockSize_lt_layout (h : ¬ sb.logBlockSize ≤ 6) :
    sb.blockSize = 65536 ∧ 65536 < sb.layoutBlockSize := by
  have hpow : 2 ^ 6 < 2 ^ sb.logBlockSize := Nat.pow_lt_pow_right (by norm_num) (by omega)
  rw [sb.blockSize_eq, min_eq_right (by omega), layoutBlockSize]
  exact ⟨rfl, by omega⟩

theorem mul_blockSize_eq_iff (sb : Superblock) (b : ℕ) :
    b * sb.blockSize = b * sb.layoutBlockSize ↔ sb.logBlockSize ≤ 6 ∨ b = 0 := by
  rw [mul_eq_mul_left_iff]
  refine or_congr ⟨fun heq => ?_, Superblock.blockSize_eq_layout⟩ Iff.rfl
  by_contra hlog
  have hlt := Superblock.blockSize_lt_layout hlog
  omega

variable {m : Mount}

theorem Mount.ofSuperblock_eq (h : Mount.ofSuperblock sb = some m) :
    m.blockSize = sb.blockSize ∧ m.inodeSize = sb.mountedInodeSize := by
  unfold Mount.ofSuperblock at h
  split_ifs at h
  cases h
  exact ⟨rfl, rfl⟩

theorem gdTable_eq (hsize : m.blockSize = sb.layoutBlockSize) :
    gdTable m = (1024 / sb.layoutBlockSize + 1) * sb.layoutBlockSize := by
  have hge := m.blockSize_ge
  unfold gdTable
  rw [← hsize]
  split_ifs with h
  · rw [h]
  · rw [Nat.div_eq_of_lt (by omega), zero_add, one_mul]

theorem group_exact_iff (hsize : m.blockSize = sb.blockSize) (g : ℕ) :
    (u32 (gdTable m + u32 (g * 32)) = layoutOffset sb (.group g) ∧
        u32 (gdTable m + u32 (g * 32)) + 32 ≤ 2 ^ 32) ↔
      sb.logBlockSize ≤ 6 ∧ layoutOffset sb (.group g) + 32 ≤ 2 ^ 32 := by
  by_cases hlog : sb.logBlockSize ≤ 6
  · have htable : layoutOffset sb (.group g) = gdTable m + 32 * g :=
      congrArg (· + 32 * g) (gdTable_eq (hsize.trans (Superblock.blockSize_eq_layout hlog))).symm
    refine ⟨fun h => ⟨hlog, h.1 ▸ h.2⟩, fun h => ?_⟩
    have hg : u32 (g * 32) = g * 32 := u32_of_lt (by omega)
    rw [hg, u32_of_lt (by omega)]
    omega
  · obtain ⟨hclamped, hlayout⟩ := Superblock.blockSize_lt_layout hlog
    refine iff_of_false (fun ⟨heq, hend⟩ => ?_) fun h => hlog h.1
    have htable : gdTable m = 65536 := by
      unfold gdTable
      rw [hsize, hclamped]
      rfl
    have hbehind : layoutOffset sb (.group g) = sb.layoutBlockSize + 32 * g := by
      rw [layoutOffset, Nat.div_eq_of_lt (by omega), zero_add, one_mul]
    generalize sb.layoutBlockSize = size at *
    unfold u32 at heq hend
    omega

theorem exact_iff_inReach (hm : Mount.ofSuperblock sb = some m)
    {a : Access} (h : Follows m a) : Exact sb a ↔ InReach sb a := by
  obtain ⟨hblock, hinode⟩ := Mount.ofSuperblock_eq hm
  obtain ⟨item, offset, size⟩ := a
  cases item with
  | bootSector =>
    obtain ⟨rfl, rfl⟩ := h
    exact iff_of_true ⟨rfl, by norm_num⟩ trivial
  | superblock =>
    obtain ⟨rfl, rfl⟩ := h
    exact iff_of_true ⟨rfl, by decide⟩ trivial
  | group g =>
    obtain ⟨rfl, rfl⟩ := h
    exact group_exact_iff hblock g
  | inode table index =>
    obtain ⟨rfl, -, rfl⟩ := h
    have hat : table * m.blockSize + index * m.inodeSize = layoutOffset sb (.inode table index) ↔
        sb.logBlockSize ≤ 6 ∨ table = 0 := by
      rw [layoutOffset, hblock, hinode, Nat.add_right_cancel_iff]
      exact mul_blockSize_eq_iff sb table
    dsimp only [Exact, InReach]
    rw [← hat]
    exact and_congr_right fun heq => by rw [← heq]
  | block b =>
    obtain ⟨rfl, hlt, rfl⟩ := h
    obtain ⟨n, hn⟩ := m.blockSize_dvd.trans (show 65536 ∣ 2 ^ 32 by norm_num)
    have hend : b * m.blockSize + m.blockSize ≤ 2 ^ 32 := by
      rw [hn, mul_comm m.blockSize n] at hlt ⊢
      rw [← Nat.succ_mul]
      exact Nat.mul_le_mul_right _ (Nat.lt_of_mul_lt_mul_right hlt)
    apply (and_iff_left hend).trans
    rw [hblock]
    exact mul_blockSize_eq_iff sb b

/-- A run ends, and its accesses are all where the layout puts their items exactly when all these
items are in reach. -/
def ExactInReach {σ α : Type} (sb : Superblock) (x : Reader σ α) (s : Session σ) : Prop :=
  ∃ r s' l, x s = .ok (r, s') ∧ s'.accesses = l ++ s.accesses ∧
    ((∀ a ∈ l, Exact sb a) ↔ ∀ a ∈ l, InReach sb a)

theorem exactInReach_of_total {σ α : Type} {x : Reader σ α} (hm : Mount.ofSuperblock sb = some m)
    {F : α → Prop} (s : Session σ) (hx : Total (Clean m s.accesses s.live) x
      fun r s' => F r ∧ Clean m s.accesses s.live s') : ExactInReach sb x s := by
  obtain ⟨r, s', hrun, -, hclean⟩ := hx s ⟨rfl, [], rfl, nofun⟩
  obtain ⟨l, hl, hfollows⟩ := hclean.follows
  exact ⟨r, s', l, hrun, hl, forall₂_congr fun a ha => exact_iff_inReach hm (hfollows a ha)⟩

theorem total_readGroup0 {σ : Type} {disk : Disk σ} {before : List Access} {live : List ℕ} :
    Total (Clean m before live) (readGroup0 disk m) fun _ => Clean m before live := by
  have hgroup : gdTable m = u32 (gdTable m + u32 (0 * 32)) := by
    have hle := m.blockSize_le
    unfold gdTable u32
    split <;> omega
  exact Total.bind (total_readDevice le_rfl ⟨hgroup, rfl⟩) fun r => Total.pure fun s hs => hs.2

/-- The check of an accepted volume, the loading and printing of a file and the listing access items
where the layout puts them exactly when these items are in reach. -/
theorem accesses_exact_iff {σ : Type} (disk : Disk σ) (env : Env σ) (sb : Superblock) (m : Mount)
    (hm : Mount.ofSuperblock sb = some m) (path : List UInt8) (buffer : Image) (s : Session σ) :
    ExactInReach sb (readGroup0 disk m) s ∧ ExactInReach sb (loadFile disk env m path buffer) s ∧
      ExactInReach sb (extfsCat disk env m path) s ∧ ExactInReach sb (extfsLs disk env m) s := by
  have hkept : ∀ {α : Type} {x : Reader σ α}, Total (Clean m s.accesses s.live) x
      (fun _ => Clean m s.accesses s.live) → ExactInReach sb x s := fun hx =>
    exactInReach_of_total hm (F := fun _ => True) s (hx.conseq (fun _ h => h) fun _ _ h => ⟨trivial, h⟩)
  exact ⟨hkept total_readGroup0, exactInReach_of_total hm s (total_loadFile path buffer),
    hkept (total_extfsCat path), hkept total_extfsLs⟩

def wideSuperblock : Superblock := Superblock.ofImage ⟨superblockSize, wideImage.from 1024⟩

theorem wideImage_exact_iff : ∃ m, Mount.ofSuperblock wideSuperblock = some m ∧
    ExactInReach wideSuperblock (readGroup0 (imageDisk wideImage) m) { dev := () } ∧
      ExactInReach wideSuperblock (loadFile (imageDisk wideImage) (heapFor 4) m [0x61]
        ⟨0, fun _ => 0⟩) { dev := () } := by
  have hsome : (Mount.ofSuperblock wideSuperblock).isSome := by decide +kernel
  obtain ⟨m, hm⟩ := Option.isSome_iff_exists.mp hsome
  have hexact := accesses_exact_iff (imageDisk wideImage) (heapFor 4) _ m hm [0x61] ⟨0, fun _ => 0⟩
    { dev := () }
  exact ⟨m, hm, hexact.1, hexact.2.1⟩

/-- The wide image is mounted and its file is loaded. -/
def wideRun : Reader Unit (Option ℕ) := do
  match ← extMount (imageDisk wideImage) (heapFor 6) with
  | none => pure none
  | some m =>
    let (size, _) ← loadFile (imageDisk wideImage) (heapFor 6) m [0x61] ⟨0, fun _ => 0⟩
    pure size

/-- The descriptor of the last group of the wide image is looked for where that of the first group
is, and the load succeeds. -/
theorem wideImage_wraps : result wideRun { dev := () } = some (some 0) ∧
    ¬ ∀ a ∈ (after wideRun { dev := () }).accesses, Exact wideSuperblock a := by
  decide +kernel

end MicroK.Ext
