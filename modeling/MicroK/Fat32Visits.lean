import MicroK.Fat32Listing
import MicroK.Fat32Volume
import MicroK.IoTriples

/-!
# The directory clusters that a lookup visits

A lookup starts at the root and visits the directories that the entries in front of the end marks
name; the other operations follow the chains of the root and of the files that such an entry names.
On clean contents all these clusters exist. What else the table and the directories hold, behind an
end mark or in clusters that nothing leads to, does not matter.
-/

namespace MicroK.Fat32

open Io Nat

def loggedFs (env : Env (Buf × List DeviceAccess)) (m : Mount) : Fs (Buf × List DeviceAccess) :=
  ⟨(diskDevice true).logged, env, m⟩

variable {c : ℕ} {disk : Buf}

namespace Volume

variable (v : Volume)

def dataEnd : ℕ := (v.dataStart + v.clusters * v.bpb.sectorsPerCluster) * 512

def Allowed (a : DeviceAccess) : Prop :=
  (v.bpb.reservedSectors * 512 ≤ a.offset ∧ a.offset + a.size ≤ v.dataStart * 512) ∨
    (v.dataStart * 512 ≤ a.offset ∧ a.offset + a.size ≤ v.dataEnd)

/-- No table entry behind the last cluster is free. -/
def FreeClean (disk : Buf) : Prop :=
  ∀ ⦃c⦄, 2 ≤ c → c < v.entries → nextOf v.mount disk c = 0 → v.Exists c

/-- The clusters of the chain that starts at a cluster. -/
inductive Linked (disk : Buf) (start : ℕ) : ℕ → Prop
  | start : Linked disk start start
  | link {c : ℕ} (hc : Linked disk start c) (hvalid : validCluster (nextOf v.mount disk c) = true) :
      Linked disk start (nextOf v.mount disk c)

def ChainClean (disk : Buf) (start : ℕ) : Prop := ∀ ⦃c⦄, v.Linked disk start c → v.Exists c

/-- Everything accessed so far is allowed, and the disk satisfies a condition. -/
def Tidy (P : Buf → Prop) (s : Buf × List DeviceAccess) : Prop :=
  AllLogged v.Allowed s ∧ P s.1

variable {v}

theorem Exists.lt_entries (hc : v.Exists c) : c < v.entries := by
  have hle : v.clusters + 2 ≤ v.entries := v.clusters_le
  have hlt := hc.2
  omega

theorem Exists.valid (hc : v.Exists c) : validCluster c = true := by
  have hlt := v.clusters_valid
  have hend := hc.2
  exact validCluster_iff.mpr ⟨hc.1, by omega⟩

theorem nextOf_copyAt {buffer : Buf} {offset size : ℕ} (hoffset : v.dataStart * 512 ≤ offset)
    (hc : c < v.entries) :
    nextOf v.mount (disk.copyAt offset size buffer) c = nextOf v.mount disk c := by
  have htable := v.table_le
  have hpos : v.mount.tablePos c = v.bpb.reservedSectors * 512 + 4 * c := rfl
  refine congrArg (· &&& 0x0FFFFFFF) (le32_congr fun j hj => Buf.copyAt_of_not_mem (.inl ?_))
  omega

theorem FreeClean.copyAt (hclean : v.FreeClean disk) {offset : ℕ}
    (hoffset : v.dataStart * 512 ≤ offset) (size : ℕ) (buffer : Buf) :
    v.FreeClean (disk.copyAt offset size buffer) := by
  intro c hlo hhi hfree
  rw [nextOf_copyAt hoffset hhi] at hfree
  exact hclean hlo hhi hfree

theorem FreeClean.tableSet (hclean : v.FreeClean disk) (hc : v.Exists c) (value : ℕ) :
    v.FreeClean (tableSet v.mount disk c value) := by
  intro x hlo hhi hfree
  rw [nextOf_tableSet] at hfree
  split_ifs at hfree with hxc
  · rw [hxc]
    exact hc
  · exact hclean hlo hhi hfree

theorem Linked.head {start c : ℕ} (hvalid : validCluster (nextOf v.mount disk start) = true)
    (hc : v.Linked disk (nextOf v.mount disk start) c) : v.Linked disk start c := by
  induction hc with
  | start => exact .link .start hvalid
  | link _ hvalid ih => exact .link ih hvalid

theorem ChainClean.next {start : ℕ} (hchain : v.ChainClean disk start)
    (hvalid : validCluster (nextOf v.mount disk start) = true) :
    v.ChainClean disk (nextOf v.mount disk start) := fun _ hc => hchain (hc.head hvalid)

/-- What only cuts links, or changes them outside the chain, keeps it clean. -/
theorem ChainClean.of_links {disk' : Buf} {start : ℕ} (hchain : v.ChainClean disk start)
    (hlinks : ∀ {c}, v.Exists c → validCluster (nextOf v.mount disk' c) = true →
      nextOf v.mount disk' c = nextOf v.mount disk c) : v.ChainClean disk' start := by
  have hold : ∀ {c}, v.Linked disk' start c → v.Linked disk start c := by
    intro c hc
    induction hc with
    | start => exact .start
    | link _ hvalid ih =>
      have hsame := hlinks (hchain ih) hvalid
      rw [hsame] at hvalid ⊢
      exact .link ih hvalid
  exact fun _ hc => hchain (hold hc)

section

variable (hfits : v.Fits) {env : Env (Buf × List DeviceAccess)} {P Q : Buf → Prop}
include hfits

theorem Fits.tableSector (hc : c < v.entries) :
    v.bpb.reservedSectors * 512 ≤ v.mount.fatSectorOffset c ∧
      v.mount.fatSectorOffset c + 512 ≤ v.dataStart * 512 := by
  have hround : ∀ r a e n d : ℕ, a % 512 = 0 → e + 4 ≤ 512 → a + e = r * 512 + 4 * c → c < n →
      r * 512 + 4 * n ≤ d * 512 → r * 512 ≤ a ∧ a + 512 ≤ d * 512 := by omega
  obtain ⟨hmod, -, -, hent⟩ := entry_in_sector v.mount c
  exact hround _ _ _ _ _ hmod hent (hfits.entryPos_eq hc) hc v.table_le

theorem Fits.cluster_allowed (hc : v.Exists c) (write : Bool) :
    v.Allowed ⟨write, v.mount.clusterOffset c, v.mount.clusterSize⟩ := by
  have hend := (v.clusterStart_add hc.1 hc.2).trans v.clusterStart_end.le
  have hstart : v.dataStart * 512 ≤ v.clusterStart c :=
    mul_le_mul_right 512 (le_add_right _ _)
  refine .inr ?_
  rw [hfits.clusterOffset_eq hc]
  exact ⟨hstart, hend⟩

theorem Fits.clusterOffset_end (hc : v.Exists c) :
    v.mount.clusterOffset c + v.mount.clusterSize ≤ 2 ^ 32 := by
  rw [hfits.clusterOffset_eq hc]
  exact hfits.cluster_end hc

theorem Fits.readCluster (hc : v.Exists c) (buffer : Buf) :
    Triple (v.Tidy P)
      (vfsReadDevice (loggedFs env v.mount).dev
        (v.mount.clusterOffset c) v.mount.clusterSize buffer)
      fun r s => v.Tidy P s ∧
        r = some (buffer.copyAt 0 v.mount.clusterSize (s.1.from (v.mount.clusterOffset c))) :=
  vfsReadDevice_logged (hfits.clusterOffset_end hc) (hfits.cluster_allowed hc false)

variable (hc : c < v.entries)
include hc

theorem Fits.readSector (buffer : Buf) : Triple (v.Tidy P)
      (vfsReadDevice (loggedFs env v.mount).dev (v.mount.fatSectorOffset c) 512 buffer)
      fun r s => v.Tidy P s ∧
        r = some (buffer.copyAt 0 512 (s.1.from (v.mount.fatSectorOffset c))) := by
  obtain ⟨hlo, hhi⟩ := hfits.tableSector hc
  exact vfsReadDevice_logged (hhi.trans hfits.data_lt.le) (.inl ⟨hlo, hhi⟩)

theorem Fits.le32_entry (disk stack : Buf) :
    le32 (stack.copyAt 0 512 (disk.from (v.mount.fatSectorOffset c))) (Mount.fatEntryOffset c) =
      tableWord v.mount disk c := by
  have hsector : le32 (stack.copyAt 0 512 (disk.from (v.mount.fatSectorOffset c)))
      (Mount.fatEntryOffset c) = le32 disk (v.mount.entryPos c) :=
    le32_sector (w := ⟨disk, 0, 0⟩) stack
  rw [hsector, hfits.entryPos_eq hc]
  rfl

theorem Fits.getNextCluster :
    Triple (v.Tidy P) (Fat32.getNextCluster (loggedFs env v.mount) c)
      fun r s => v.Tidy P s ∧ r = nextOf v.mount s.1 c := by
  refine (Triple.stackBuf env).bind fun stack => (hfits.readSector hc stack).bind fun got w hw => ?_
  obtain ⟨hinv, rfl⟩ := hw
  exact ⟨hinv, congrArg (· &&& 0x0FFFFFFF) (hfits.le32_entry hc _ _)⟩

theorem Fits.setCluster (value : ℕ) (hP : ∀ d, P d → Q (tableSet v.mount d c value)) :
    Triple (v.Tidy P)
      (Fat32.setCluster (loggedFs env v.mount) c value)
      fun _ => v.Tidy Q := by
  refine (Triple.stackBuf env).bind fun stack => (hfits.readSector hc stack).bind fun got w hw => ?_
  obtain ⟨⟨hlog, hd⟩, rfl⟩ := hw
  obtain ⟨hlo, hhi⟩ := hfits.tableSector hc
  refine vfsWriteDevice_logged (P := (· = w.dev.1)) (hhi.trans hfits.data_lt.le)
    (.inl ⟨hlo, hhi⟩) ?_ w ⟨hlog, rfl⟩
  rintro _ rfl
  have hset : w.dev.1.copyAt (v.mount.fatSectorOffset c) 512
      ((stack.copyAt 0 512 (w.dev.1.from (v.mount.fatSectorOffset c))).setLe32
        (Mount.fatEntryOffset c) ((value &&& 0x0FFFFFFF) |||
          (tableWord v.mount w.dev.1 c &&& 0xF0000000))) = tableSet v.mount w.dev.1 c value := by
    obtain ⟨-, -, -, hent⟩ := entry_in_sector v.mount c
    have hpos : v.mount.fatSectorOffset c + Mount.fatEntryOffset c = v.mount.tablePos c :=
      hfits.entryPos_eq hc
    rw [Buf.setLe32, Buf.copyAt_patch _ _ _ hent, hpos, tableSet, Buf.setLe32]
  rw [hfits.le32_entry hc, hset]
  exact hP _ hd

omit hc

omit hfits in
theorem freeEntryIn_spec {sector : Buf} {s e : ℕ} (h : freeEntryIn sector s = some e) :
    e < 128 ∧ 2 ≤ u32 (s * 128 + e) ∧ le32 sector (4 * e) &&& 0x0FFFFFFF = 0 := by
  have hfound := List.find?_some h
  have hmem := List.mem_range.mp (List.mem_of_find?_eq_some h)
  simp only [Bool.and_eq_true, decide_eq_true_eq, beq_iff_eq] at hfound
  exact ⟨hmem, hfound.1, hfound.2⟩

theorem Fits.findFreeLoop {left s : ℕ} (hs : s + left = v.bpb.sectorsPerFat32) (sector : Buf) :
    Triple (v.Tidy P)
      (Fat32.findFreeLoop (loggedFs env v.mount) left s sector)
      fun r s => v.Tidy P s ∧
        (r = 0xFFFFFFFF ∨ 2 ≤ r ∧ r < v.entries ∧ nextOf v.mount s.1 r = 0) := by
  induction left generalizing s sector with
  | zero => exact Triple.pure fun s hs => ⟨hs, .inl rfl⟩
  | succ left ih =>
    have hwithin : ∀ r f d : ℕ, s + (left + 1) = f → r * 512 + 4 * (f * 128) ≤ d * 512 →
        (r + s) * 512 + 512 ≤ d * 512 := by omega
    have hsector := hwithin _ _ _ hs v.table_le
    have hlo : v.bpb.reservedSectors * 512 ≤ (v.bpb.reservedSectors + s) * 512 :=
      mul_le_mul_right 512 (le_add_right _ _)
    have hlt := hfits.data_lt
    have hoffset : u32 (u32 ((loggedFs env v.mount).mount.fatStartLba + s) * 512) =
        (v.bpb.reservedSectors + s) * 512 := by
      have hstart : (loggedFs env v.mount).mount.fatStartLba = v.bpb.reservedSectors := rfl
      rw [hstart, u32_of_lt (n := v.bpb.reservedSectors + s) (by linarith), u32_of_lt (by linarith)]
    rw [Fat32.findFreeLoop, hoffset]
    refine Triple.bind (vfsReadDevice_logged (by linarith) (.inl ⟨hlo, hsector⟩)) ?_
    rintro _ w ⟨hinv, rfl⟩
    dsimp only [Option.getD_some]
    cases hfree : freeEntryIn
      (sector.copyAt 0 512 (w.dev.1.from ((v.bpb.reservedSectors + s) * 512))) s with
    | none => exact ih (by omega) _ w hinv
    | some e =>
      obtain ⟨he, htwo, hzero⟩ := freeEntryIn_spec hfree
      have hbound : ∀ f : ℕ, s + (left + 1) = f → s * 128 + e < f * 128 := by omega
      have hentry : s * 128 + e < v.entries := hbound _ hs
      have hword : ∀ n d : ℕ, s * 128 + e < n → 4 * n ≤ d → d < 2 ^ 32 → s * 128 + e < 2 ^ 32 := by
        omega
      have hcluster : u32 (s * 128 + e) = s * 128 + e :=
        u32_of_lt (hword _ _ hentry (le_trans (le_add_left _ _) v.table_le) hlt)
      refine ⟨hinv, .inr ?_⟩
      change 2 ≤ u32 (s * 128 + e) ∧ u32 (s * 128 + e) < v.entries ∧
        nextOf v.mount w.dev.1 (u32 (s * 128 + e)) = 0
      rw [hcluster] at htwo ⊢
      refine ⟨htwo, hentry, ?_⟩
      rw [← hzero, nextOf, tableWord]
      refine congrArg (· &&& 0x0FFFFFFF) (le32_congr fun j hj => ?_)
      rw [Buf.copyAt_of_mem (zero_le _) (by omega), Buf.from]
      apply congrArg w.dev.1
      have hpos : ∀ r : ℕ, r * 512 + 4 * (s * 128 + e) + j = (r + s) * 512 + (4 * e + j - 0) := by
        omega
      exact hpos v.bpb.reservedSectors

theorem Fits.findFreeCluster :
    Triple (v.Tidy P)
      (Fat32.findFreeCluster (loggedFs env v.mount))
      fun r s => v.Tidy P s ∧
        (r = 0xFFFFFFFF ∨ 2 ≤ r ∧ r < v.entries ∧ nextOf v.mount s.1 r = 0) :=
  (Triple.stackBuf env).bind fun stack => hfits.findFreeLoop (zero_add _) stack

end

end Volume

variable {c left cluster : ℕ} {buffer : Buf} {path : List UInt8}

section

variable {entry : ℕ → Buf} {name : List UInt8} {target : Option Buf} {i : ℕ} {st : LfnState}

end

namespace Volume

variable (v : Volume)

def slot (disk : Buf) (c i : ℕ) : Buf := entryOf (disk.from (v.mount.clusterOffset c)) i

/-- None of the first `i` entries of a directory cluster is the end mark. -/
def Before (disk : Buf) (c i : ℕ) : Prop := ∀ j < i, v.slot disk c j 0 ≠ 0

/-- The directory clusters that a lookup or a listing can come to. -/
inductive Visited (disk : Buf) : ℕ → Prop
  | root (hvalid : validCluster v.mount.rootCluster = true) : Visited disk v.mount.rootCluster
  | link {c : ℕ} (hc : Visited disk c) (hopen : v.Before disk c v.mount.slots)
      (hvalid : validCluster (nextOf v.mount disk c) = true) : Visited disk (nextOf v.mount disk c)
  | sub {c i : ℕ} (hc : Visited disk c) (hi : i < v.mount.slots) (hopen : v.Before disk c i)
      (hdir : entryIsDir (v.slot disk c i) = true)
      (hvalid : validCluster (entryCluster (v.slot disk c i)) = true) :
      Visited disk (entryCluster (v.slot disk c i))

/-- The clusters of the root and of the files that a lookup can come to. -/
inductive Followed (disk : Buf) : ℕ → Prop
  | root (hvalid : validCluster v.mount.rootCluster = true) : Followed disk v.mount.rootCluster
  | file {c i : ℕ} (hc : v.Visited disk c) (hi : i < v.mount.slots) (hopen : v.Before disk c i)
      (hfile : entryIsFile (v.slot disk c i) = true)
      (hvalid : validCluster (entryCluster (v.slot disk c i)) = true) :
      Followed disk (entryCluster (v.slot disk c i))
  | link {c : ℕ} (hc : Followed disk c) (hvalid : validCluster (nextOf v.mount disk c) = true) :
      Followed disk (nextOf v.mount disk c)

/-- The clusters that the operations can come to exist, and no table entry behind the last cluster
is free. -/
structure Clean (disk : Buf) : Prop where
  visited : ∀ {c}, v.Visited disk c → v.Exists c
  followed : ∀ {c}, v.Followed disk c → v.Exists c
  free : v.FreeClean disk

structure FoundAt (disk : Buf) (f : Found) : Prop where
  visited : v.Visited disk f.cluster
  lt : f.index < v.mount.slots
  before : v.Before disk f.cluster f.index
  entry_eq : f.entry = v.slot disk f.cluster f.index
  usable : entryIsUsable f.entry = true

variable {v} {disk : Buf}

theorem Followed.linked {start : ℕ} (hstart : v.Followed disk start) (hc : v.Linked disk start c) :
    v.Followed disk c := by
  induction hc with
  | start => exact hstart
  | link _ hvalid ih => exact .link ih hvalid

theorem FoundAt.followed {f : Found} (hf : v.FoundAt disk f) (hfile : entryIsFile f.entry = true)
    (hvalid : validCluster (entryCluster f.entry) = true) :
    v.Followed disk (entryCluster f.entry) := by
  rw [hf.entry_eq] at hfile hvalid ⊢
  exact .file hf.visited hf.lt hf.before hfile hvalid

section

variable (hfits : v.Fits) {env : Env (Buf × List DeviceAccess)}
include hfits

variable {β : Type} {Q : β → Buf × List DeviceAccess → Prop}

theorem Fits.next_then {f : ℕ → Io (Buf × List DeviceAccess) β} (hc : v.Exists c)
    (hf : Triple (v.Tidy (· = disk)) (f (nextOf v.mount disk c)) Q) :
    Triple (v.Tidy (· = disk)) (Fat32.getNextCluster (loggedFs env v.mount) c >>= f) Q := by
  refine (hfits.getNextCluster (P := (· = disk)) hc.lt_entries).bind fun next w hw => ?_
  obtain ⟨⟨hlog, rfl⟩, rfl⟩ := hw
  exact hf w ⟨hlog, rfl⟩

variable (hclean : v.Clean disk)
include hclean

variable (hcluster : validCluster cluster = true → v.Visited disk cluster)
include hcluster

omit hcluster

variable (hcluster : validCluster cluster = true → v.Visited disk cluster)
include hcluster

omit hcluster

variable (hcluster : validCluster cluster = true → v.Visited disk cluster)
include hcluster

end

end Volume

end MicroK.Fat32
