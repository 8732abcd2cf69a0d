import MicroK.Fat32Resolve

/-!
# Creating and deleting entries on a disk

What `fat32_create_file`, `fat32_mkdir` and `fat32_delete_file` do to the disk of a consistent
volume when memory does not run out. A new entry is planned from the volume as it is: its short
name, the directory, the index of the first free slot on the way through the directory, and the
first free cluster. The index is then used in the first cluster of the directory.
-/

namespace MicroK.Fat32

open SuccessorChain World

variable (m : Mount) (disk : Buf)

/-- Where a new entry goes, whether or not there is one at the path already. -/
def slotPlan (path : List UInt8) : Option EntryPlan :=
  match make83Name path, parentIn m (viewOf m disk) path with
  | some name, some parent =>
    match freeSlotInClusters m (viewOf m disk) (clustersOf m (viewOf m disk) parent),
        firstFree m disk with
    | some index, some cluster => some ⟨name, parent, index, cluster⟩
    | _, _ => none
  | _, _ => none

/-- The steps that creating a file and making a directory have in common. -/
def entryPlan (path : List UInt8) : Option EntryPlan :=
  if (resolvePathIn m (viewOf m disk) path).isSome then none else slotPlan m disk path

def createdDisk (p : EntryPlan) : Buf :=
  slotSet m (tableSet m disk p.cluster 0x0FFFFFFF) p.parent p.index (newEntry p.name 0x20 p.cluster)

def mkdirDisk (p : EntryPlan) : Buf :=
  slotSet m
    (clusterSet m (tableSet m disk p.cluster 0x0FFFFFFF) p.cluster
      (newDirCluster p.cluster p.parent))
    p.parent p.index (newEntry p.name 0x10 p.cluster)

def tableClear (l : List ℕ) : Buf :=
  l.foldl (fun d c => tableSet m d c 0) disk

def deletedDisk (f : Found) : Buf :=
  slotSet m (tableClear m disk (clustersOf m (viewOf m disk) (entryCluster f.entry))) f.cluster
    f.index (Function.update f.entry 0 0xE5)

variable {m : Mount}

theorem nextOf_tableClear (disk : Buf) (l : List ℕ) (d : ℕ) :
    nextOf m (tableClear m disk l) d = if d ∈ l then 0 else nextOf m disk d := by
  induction l generalizing disk with
  | nil => simp [tableClear]
  | cons c cs ih =>
    change nextOf m (tableClear m (tableSet m disk c 0) cs) d = _
    rw [ih, nextOf_tableSet]
    by_cases hd : d ∈ cs
    · simp [hd]
    · by_cases hdc : d = c <;> simp [hd, hdc]

theorem slot_tableClear (hg : Geometry m) {l : List ℕ} (hl : ∀ c ∈ l, c < m.maxClusters)
    (disk : Buf) {d i : ℕ} (hi : i < m.slots) :
    (viewOf m (tableClear m disk l)).slot d i = (viewOf m disk).slot d i := by
  induction l generalizing disk with
  | nil => rfl
  | cons c cs ih =>
    change (viewOf m (tableClear m (tableSet m disk c 0) cs)).slot d i = _
    rw [ih (fun e he => hl e (List.mem_cons_of_mem c he)),
      slot_tableSet hg (hl c List.mem_cons_self) hi]

variable {disk : Buf} {path : List UInt8} {p : EntryPlan}

theorem slotPlan_eq_some :
    slotPlan m disk path = some p ↔
    make83Name path = some p.name ∧ parentIn m (viewOf m disk) path = some p.parent ∧
      freeSlotInClusters m (viewOf m disk) (clustersOf m (viewOf m disk) p.parent) = some p.index ∧
      firstFree m disk = some p.cluster := by
  constructor
  · intro h
    unfold slotPlan at h
    split at h
    · rename_i name parent hname hparent
      split at h
      · rename_i index cluster hindex hcluster
        cases h
        exact ⟨hname, hparent, hindex, hcluster⟩
      · cases h
    · cases h
  · rintro ⟨hname, hparent, hindex, hcluster⟩
    simp only [slotPlan, hname, hparent, hindex, hcluster]

theorem slotPlan_of_entryPlan (h : entryPlan m disk path = some p) :
    slotPlan m disk path = some p := by
  unfold entryPlan at h
  split_ifs at h
  exact h

theorem Consistent.slotPlan_spec (hc : Consistent m (viewOf m disk)) (hg : Geometry m)
    (h : slotPlan m disk path = some p) :
    IsDir m (viewOf m disk) p.parent ∧ InRange m p.parent ∧ p.index < m.slots ∧
      InRange m p.cluster ∧ nextOf m disk p.cluster = 0 := by
  obtain ⟨-, hparent, hslot, hfree⟩ := slotPlan_eq_some.1 h
  have hdir := hc.isDir_of_parentIn hg hparent
  obtain ⟨l, hl⟩ := hc.isDir_chain hdir
  obtain ⟨h2, hlt, hzero⟩ := firstFree_spec hfree
  exact ⟨hdir, hl.inRange hl.head_mem, freeSlotInClusters_lt hslot, ⟨h2, hlt⟩, hzero⟩

section

variable {writable : Bool} {env : Env Buf} {w : World Buf}

theorem writeEntryAt_disk (hg : Geometry m) {c i : ℕ} (hc : InRange m c) (hi : i < m.slots)
    (hok : env.kmallocOk w.allocs = true) (e : Buf) :
    writeEntryAt (diskFs writable env m) c i e w =
      (true, (w.bump 1).write writable (slotSet m w.dev c i e)) := by
  have hoff := hg.clusterOffset_eq hc
  have hend := hg.cluster_lt hc
  have hslot : 32 * i + 32 ≤ m.clusterSize := by
    have hsize := m.clusterSize_eq
    omega
  simp only [writeEntryAt, diskFs_dev, diskFs_env, diskFs_mount, Io.bind_apply,
    kmallocBuf_of_ok hok, hoff, vfsReadDevice_disk hend, Option.getD_some,
    vfsWriteDevice_disk hend, Io.pure_apply]
  cases writable with
  | false => simp only [write_false]
  | true =>
    simp only [write_true, bump_dev, Buf.copyAt_patch _ _ _ hslot, slotSet]

section

variable (hg : Geometry m) (hc : Consistent m (viewOf m w.dev))
include hg hc

theorem planSlot_disk {name : Buf} {path : List UInt8} (hname : make83Name path = some name) :
    Delivers env (do
      match ← parentCluster (diskFs writable env m) path with
      | none => pure none
      | some parent =>
        match ← findFreeSlotInDir (diskFs writable env m) parent with
        | none => pure none
        | some index => do
          let cluster ← findFreeCluster (diskFs writable env m)
          if cluster = 0xFFFFFFFF then pure none else pure (some ⟨name, parent, index, cluster⟩)) w
      (slotPlan m w.dev path) := by
  refine (parentCluster_disk hg hc path).bind (fun _ => rfl) (fun n => ?_)
  rw [slotPlan, hname]
  cases hparent : parentIn m (viewOf m w.dev) path with
  | none => exact .pure env _ none
  | some parent =>
    obtain ⟨l, hl⟩ := hc.isDir_chain (hc.isDir_of_parentIn hg hparent)
    refine (findFreeSlotInDir_disk (w := w.bump n) hg hl).bind (fun _ => rfl) (fun n' => ?_)
    simp only [bump_dev, hl.clustersOf_eq hg]
    cases freeSlotInClusters m (viewOf m w.dev) l with
    | none => exact .pure env _ none
    | some index =>
      refine ⟨0, .inl ?_⟩
      simp only [Io.bind_apply, findFreeCluster_disk hg, bump_dev, Io.ite_apply]
      cases hfree : firstFree m w.dev with
      | none => rfl
      | some c =>
        have hlt := (firstFree_spec hfree).2.1
        have hmax := hg.max_lt
        rw [Option.getD_some, if_neg (by omega)]
        rfl

theorem planEntry_cases (path : List UInt8) :
    ∃ n, planEntry (diskFs writable env m) path w = (none, w.bump n) ∨
      ∃ p, slotPlan m w.dev path = some p ∧
        planEntry (diskFs writable env m) path w = (some p, w.bump n) := by
  unfold planEntry
  cases hname : make83Name path with
  | none => exact ⟨0, .inl rfl⟩
  | some name =>
    obtain ⟨r, n, hres⟩ : ∃ r n, resolvePath (diskFs writable env m) path w = (r, w.bump n) :=
      (resolvePath_disk hg hc path).exists_eq
    simp only [Io.bind_apply, hres]
    cases r with
    | some f => exact ⟨n, .inl rfl⟩
    | none =>
      obtain ⟨n', h | ⟨h, -⟩⟩ := planSlot_disk (w := w.bump n) hg hc hname
      · rw [bump_bump, bump_dev] at h
        cases hp : slotPlan m w.dev path with
        | none => exact ⟨n + n', .inl (h.trans (by rw [hp]))⟩
        | some p => exact ⟨n + n', .inr ⟨p, rfl, h.trans (by rw [hp])⟩⟩
      · rw [bump_bump] at h
        exact ⟨n + n', .inl h⟩

end

variable (hg : Geometry m) (hok : ∀ n, env.kmallocOk n = true)
  (hc : Consistent m (viewOf m w.dev))
include hg hok hc

theorem planEntry_disk (path : List UInt8) :
    ∃ n, planEntry (diskFs writable env m) path w = (entryPlan m w.dev path, w.bump n) := by
  unfold planEntry entryPlan
  cases hname : make83Name path with
  | none =>
    refine ⟨0, ?_⟩
    simp only [slotPlan, hname, ite_self]
    rfl
  | some name =>
    obtain ⟨n, hres⟩ : ∃ n, resolvePath (diskFs writable env m) path w = _ :=
      (resolvePath_disk hg hc path).of_ok hok
    simp only [Io.bind_apply, hres]
    cases resolvePathIn m (viewOf m w.dev) path with
    | some f => exact ⟨n, rfl⟩
    | none =>
      obtain ⟨n', h⟩ := (planSlot_disk (w := w.bump n) hg hc hname).of_ok hok
      exact ⟨n + n', h.trans (by rw [bump_bump, bump_dev]; rfl)⟩

theorem createFile_disk (path : List UInt8) :
    ∃ n, createFile (diskFs writable env m) path w =
      match entryPlan m w.dev path with
      | none => (false, w.bump n)
      | some p => (true, (w.bump n).write writable (createdDisk m w.dev p)) := by
  obtain ⟨n, hn⟩ : ∃ n, planEntry (diskFs writable env m) path w = _ :=
    planEntry_disk hg hok hc path
  simp only [createFile, Io.bind_apply, hn]
  cases hplan : entryPlan m w.dev path with
  | none => exact ⟨n, rfl⟩
  | some p =>
    obtain ⟨-, hparent, hindex, hcluster, -⟩ := hc.slotPlan_spec hg (slotPlan_of_entryPlan hplan)
    refine ⟨n + 1, ?_⟩
    simp only [Io.bind_apply, setCluster_disk hg hcluster.2,
      writeEntryAt_disk hg hparent hindex (hok _)]
    cases writable with
    | false => rfl
    | true => rfl

theorem mkdir_disk (path : List UInt8) :
    ∃ n, mkdir (diskFs writable env m) path w =
      match entryPlan m w.dev path with
      | none => (false, w.bump n)
      | some p => (true, (w.bump n).write writable (mkdirDisk m w.dev p)) := by
  obtain ⟨n, hn⟩ : ∃ n, planEntry (diskFs writable env m) path w = _ :=
    planEntry_disk hg hok hc path
  simp only [mkdir, Io.bind_apply, hn]
  cases hplan : entryPlan m w.dev path with
  | none => exact ⟨n, rfl⟩
  | some p =>
    obtain ⟨-, hparent, hindex, hcluster, -⟩ := hc.slotPlan_spec hg (slotPlan_of_entryPlan hplan)
    have hoff := hg.clusterOffset_eq hcluster
    have hend := hg.cluster_lt hcluster
    refine ⟨n + 2, ?_⟩
    simp only [Io.bind_apply, setCluster_disk hg hcluster.2, diskFs_env, diskFs_dev, diskFs_mount,
      kmallocBuf_of_ok (hok _), hoff, vfsWriteDevice_disk hend,
      writeEntryAt_disk hg hparent hindex (hok _)]
    cases writable with
    | false => rfl
    | true => rfl

end

section

variable {writable : Bool} {env : Env Buf} {w : World Buf} (hg : Geometry m)
include hg

theorem freeChain_disk {l : List ℕ} {c fuel : ℕ}
    (hl : Leads (viewOf m w.dev).next (InRange m) EndOfChain c l) (hnodup : l.Nodup)
    (hlen : l.length < fuel) :
    freeChain (diskFs writable env m) fuel c w =
      ((), w.write writable (tableClear m w.dev l)) := by
  induction l generalizing c fuel w with
  | nil =>
    cases fuel with
    | zero => cases hlen
    | succ fuel =>
      rw [freeChain, validCluster_of_endOfChain hl]
      cases writable <;> rfl
  | cons d ds ih =>
    cases fuel with
    | zero => cases hlen
    | succ fuel =>
      obtain ⟨rfl, hd, hds⟩ := hl
      obtain ⟨hnotin, hnodup⟩ := List.nodup_cons.1 hnodup
      rw [freeChain, if_pos (validCluster_of_inRange hg hd)]
      simp only [Io.bind_apply, getNextCluster_disk hg hd.2, setCluster_disk hg hd.2]
      cases writable with
      | false => exact ih (w := w) hds hnodup (Nat.lt_of_succ_lt_succ hlen)
      | true =>
        have hds' : Leads (viewOf m (tableSet m w.dev d 0)).next (InRange m) EndOfChain
            (nextOf m w.dev d) ds := by
          refine hds.congr (fun e he => ?_)
          change nextOf m (tableSet m w.dev d 0) e = nextOf m w.dev e
          have hed : e ≠ d := fun hed => hnotin (hed ▸ he)
          rw [nextOf_tableSet, if_neg hed]
        exact ih (w := { w with dev := tableSet m w.dev d 0 }) hds' hnodup
          (Nat.lt_of_succ_lt_succ hlen)

theorem deleteFile_disk (hok : ∀ n, env.kmallocOk n = true) (hc : Consistent m (viewOf m w.dev))
    (path : List UInt8) :
    ∃ n, deleteFile (diskFs writable env m) path w =
      match resolvePathIn m (viewOf m w.dev) path with
      | none => (false, w.bump n)
      | some f =>
        if entryIsDir f.entry then (false, w.bump n)
        else (true, (w.bump n).write writable (deletedDisk m w.dev f)) := by
  obtain ⟨n, hn⟩ : ∃ n, resolvePath (diskFs writable env m) path w = _ :=
    (resolvePath_disk hg hc path).of_ok hok
  simp only [deleteFile, Io.bind_apply, hn]
  cases hres : resolvePathIn m (viewOf m w.dev) path with
  | none => exact ⟨n, rfl⟩
  | some f =>
    simp only [Io.ite_apply]
    split_ifs with hdir
    · exact ⟨n, rfl⟩
    · obtain ⟨hlive, he⟩ := hc.live_of_resolvePathIn hg hres
      obtain ⟨l, hl⟩ := hc.entry_chain hlive
      rw [← he] at hl
      obtain ⟨h, r, -, hr, hmem⟩ := hlive.dir
      have hlen := hl.length_le hg
      have hmax := hg.max_lt
      have hfree : freeChain (diskFs writable env m) (2 ^ 28) (entryCluster f.entry)
        (w.bump n) = _ :=
        freeChain_disk (w := w.bump n) hg hl.leads (hl.nodup hmax) (by omega)
      refine ⟨n + 1, ?_⟩
      simp only [Io.bind_apply, hfree, writeEntryAt_disk hg (hr.inRange hmem) hlive.lt (hok _),
        deletedDisk, hl.clustersOf_eq hg]
      cases writable with
      | false => rfl
      | true => rfl

end

end MicroK.Fat32
