import MicroK.Fat32NewEntries

/-!
# What is left on the device when an operation fails

Creating a file, making a directory and deleting a file change the allocation table before
`fat32_write_entry_at` asks for memory. When it gets none the operation reports failure with the
table already changed. Only the first request of `fat32_mkdir` is followed by a rollback. The
results here are about any volume below 4 GiB, consistent or not.
-/

namespace MicroK.Fat32

open Io World Nat

variable {m : Mount} {writable : Bool} {env : Env Buf} {w : World Buf} {path : List UInt8}

theorem getNextCluster_readOnly (c : ℕ) :
    Io.ReadOnly (getNextCluster (diskFs writable env m) c) := by
  intro w
  rw [getNextCluster_at]

theorem findEntryInDir_readOnly (c : ℕ) (name : List UInt8) :
    Io.ReadOnly (findEntryInDir (diskFs writable env m) c name) := by
  intro w
  rw [findEntryInDir_eq, bump_dev]

theorem findFreeSlotInDir_readOnly (c : ℕ) :
    Io.ReadOnly (findFreeSlotInDir (diskFs writable env m) c) := by
  intro w
  rw [findFreeSlotInDir_eq, bump_dev]

section

variable {Q : Buf → Found → Prop} (hfind : ∀ c name,
  Io.Reads (findEntryInDir (diskFs writable env m) c name) fun disk r => ∀ f, r = some f → Q disk f)
include hfind

theorem resolveLoop_reads (fuel : ℕ) (path : List UInt8) (c : ℕ) :
    Io.Reads (resolveLoop (diskFs writable env m) fuel path c)
      fun disk r => ∀ f, r = some f → Q disk f := by
  induction fuel generalizing path c with
  | zero => exact .pure (fun _ => nofun)
  | succ fuel ih =>
    rw [resolveLoop]
    cases nextPathComponent path 64 with
    | tooLong => exact .pure (fun _ => nofun)
    | done => exact .pure (fun _ => nofun)
    | next name rest =>
      refine .bind_of (hfind c name) (fun found => ?_)
      cases found with
      | none => exact .pure (fun _ _ => nofun)
      | some d =>
        cases nextPathComponent rest 64 with
        | tooLong => exact .pure (fun _ _ => nofun)
        | done => exact .pure (fun _ hd => hd)
        | next _ _ =>
          dsimp only
          split_ifs
          · exact fun w => ⟨(ih rest _ w).1, fun _ => (ih rest _ w).2⟩
          · exact .pure (fun _ _ => nofun)

/-- A path is resolved without a change, to an entry that one of the lookups has found. -/
theorem resolvePath_reads (path : List UInt8) :
    Io.Reads (resolvePath (diskFs writable env m) path)
      fun disk r => ∀ f, r = some f → Q disk f := by
  unfold resolvePath
  split_ifs
  · exact .pure (fun _ => nofun)
  · exact resolveLoop_reads hfind _ _ _

end

theorem resolvePath_readOnly (path : List UInt8) :
    Io.ReadOnly (resolvePath (diskFs writable env m) path) := fun w =>
  (@resolvePath_reads _ _ _ (fun _ _ => True)
    (fun c name w => ⟨findEntryInDir_readOnly c name w, fun _ _ => trivial⟩) path w).1

theorem resolveDirCluster_readOnly (path : List UInt8) :
    Io.ReadOnly (resolveDirCluster (diskFs writable env m) path) := by
  unfold resolveDirCluster
  split_ifs
  · exact .pure _
  · refine .bind (resolvePath_readOnly path) (fun found => ?_)
    cases found with
    | none => exact .pure none
    | some f =>
      dsimp only
      split_ifs
      · exact .pure _
      · exact .pure none

theorem parentCluster_readOnly (path : List UInt8) :
    Io.ReadOnly (parentCluster (diskFs writable env m) path) := by
  unfold parentCluster
  cases lastSlash path with
  | none => exact .pure _
  | some len =>
    dsimp only
    split_ifs
    · exact .pure none
    · exact resolveDirCluster_readOnly _
    · exact resolveDirCluster_readOnly _

/-- The steps before the first change only read, and the cluster they choose is a free one. -/
theorem planEntry_reads (hg : Geometry m) (path : List UInt8) :
    Io.Reads (planEntry (diskFs writable env m) path)
      (fun disk r => ∀ p, r = some p → InRange m p.cluster ∧ nextOf m disk p.cluster = 0) := by
  unfold planEntry
  cases make83Name path with
  | none => exact .pure nofun
  | some name =>
    refine .bind (resolvePath_readOnly path) (fun found => ?_)
    cases found with
    | some f => exact .pure nofun
    | none =>
      refine .bind (parentCluster_readOnly path) (fun parent => ?_)
      cases parent with
      | none => exact .pure nofun
      | some parent =>
        refine .bind (findFreeSlotInDir_readOnly parent) (fun index => ?_)
        cases index with
        | none => exact .pure nofun
        | some index =>
          intro w
          simp only [Io.bind_apply, findFreeCluster_disk hg, Io.ite_apply]
          cases hfree : firstFree m w.dev with
          | none => exact ⟨rfl, nofun⟩
          | some c =>
            obtain ⟨h2, hlt, hzero⟩ := firstFree_spec hfree
            have hmax := hg.max_lt
            rw [Option.getD_some, if_neg (by omega)]
            refine ⟨rfl, fun p hp => ?_⟩
            cases hp
            exact ⟨⟨h2, hlt⟩, hzero⟩

section

variable {disk : Buf} {x c : ℕ}

theorem high_of_low_clear (h : le32 disk x &&& 0x0FFFFFFF = 0) :
    le32 disk x &&& 0xF0000000 = le32 disk x := by
  have hall : le32 disk x &&& (0x0FFFFFFF ||| 0xF0000000) = le32 disk x := by
    rw [show 0x0FFFFFFF ||| 0xF0000000 = 2 ^ 32 - 1 by decide, and_two_pow_sub_one_eq_mod]
    exact mod_eq_of_lt (le32_lt disk x)
  rwa [and_or_distrib_left, h, zero_or] at hall

theorem tableSet_rollback (hfree : nextOf m disk c = 0) (v : ℕ) :
    tableSet m (tableSet m disk c v) c 0 = disk := by
  have hhigh : ((v &&& 0x0FFFFFFF) ||| (tableWord m disk c &&& 0xF0000000)) &&& 0xF0000000 =
      tableWord m disk c := by
    have hmask : 0x0FFFFFFF &&& 0xF0000000 = 0 := by decide
    rw [Nat.and_or_distrib_right, Nat.land_assoc, Nat.land_assoc, hmask, Nat.and_self, Nat.and_zero,
      Nat.zero_or]
    exact high_of_low_clear hfree
  unfold tableSet
  rw [Buf.setLe32_setLe32]
  simp only [tableWord] at hhigh ⊢
  rw [le32_setLe32_self _ _ (mask_lt _ _), hhigh, Nat.zero_and, Nat.zero_or, Buf.setLe32_self]

theorem tableSet_ne (hfree : nextOf m disk c = 0) : tableSet m disk c 0x0FFFFFFF ≠ disk := by
  intro he
  have hnext := congrArg (fun d => nextOf m d c) he
  simp only [nextOf_tableSet, if_true, hfree] at hnext
  exact absurd hnext (by decide)

end

section

variable {c fuel x : ℕ}

theorem freeChain_allocs : (freeChain (diskFs writable env m) fuel c w).2.allocs = w.allocs := by
  induction fuel generalizing c w with
  | zero => rfl
  | succ fuel ih =>
    rw [freeChain]
    split_ifs
    · simp only [bind_apply, getNextCluster_at, setCluster_at, ih]
      rfl
    · rfl

theorem freeChain_low_clear (hx : x % 4 = 0) (hclear : le32 w.dev x &&& 0x0FFFFFFF = 0) :
    le32 (freeChain (diskFs true env m) fuel c w).2.dev x &&& 0x0FFFFFFF = 0 := by
  induction fuel generalizing c w with
  | zero => exact hclear
  | succ fuel ih =>
    rw [freeChain]
    split_ifs
    · simp only [bind_apply, getNextCluster_at, setCluster_at, write_true]
      apply ih
      obtain ⟨hsec, -, hent, -⟩ := entry_in_sector m c
      by_cases hpos : x = m.entryPos c
      · rw [hpos, le32_setLe32_self _ _ (mask_lt _ _), mask_low, zero_and]
      · have hdisj : x + 4 ≤ m.entryPos c ∨ m.entryPos c + 4 ≤ x := by
          unfold Mount.entryPos at hpos ⊢
          omega
        rwa [le32_setLe32_of_disjoint _ _ hdisj]
    · exact hclear

/-- Freeing changes the device exactly when there is an entry to clear. -/
theorem freeChain_dev_eq_iff :
    (freeChain (diskFs true env m) (fuel + 1) c w).2.dev = w.dev ↔
      (validCluster c = true → (getNextCluster (diskFs true env m) c w).1 = 0) := by
  rw [freeChain, getNextCluster_at]
  split_ifs with hvalid
  · simp only [bind_apply, getNextCluster_at, setCluster_at, write_true, hvalid,
      forall_const]
    constructor
    · intro hdev
      obtain ⟨hsec, -, hent, -⟩ := entry_in_sector m c
      rw [← hdev]
      apply freeChain_low_clear (by unfold Mount.entryPos; omega)
      rw [le32_setLe32_self _ _ (mask_lt _ _), mask_low, zero_and]
    · intro hzero
      have hsame : w.dev.setLe32 (m.entryPos c)
          ((0 &&& 0x0FFFFFFF) ||| (le32 w.dev (m.entryPos c) &&& 0xF0000000)) = w.dev := by
        rw [zero_and, zero_or, high_of_low_clear hzero, Buf.setLe32_self]
      rw [hzero, hsame]
      cases fuel <;> rfl
  · simp [hvalid]

end

theorem writeEntryAt_fst (c i : ℕ) (e : Buf) :
    (writeEntryAt (diskFs writable env m) c i e w).1 = env.kmallocOk w.allocs := by
  cases hok : env.kmallocOk w.allocs with
  | false => rw [writeEntryAt_of_fail hok]
  | true => simp only [writeEntryAt, diskFs_env, bind_apply, kmallocBuf_of_ok hok, pure_apply]

theorem setCluster_readOnly (c v : ℕ) : Io.ReadOnly (setCluster (diskFs false env m) c v) := by
  intro w
  rw [setCluster_at, write_false]

theorem writeEntryAt_readOnly (c i : ℕ) (e : Buf) :
    Io.ReadOnly (writeEntryAt (diskFs false env m) c i e) := by
  refine .bind (.kmallocBuf env) (fun got => ?_)
  cases got with
  | none => exact .pure false
  | some buf =>
    exact .bind (.vfsReadDevice false _ _ _) (fun _ =>
      .bind (.vfsWriteDevice _ _ _) (fun _ => .pure true))

theorem freeChain_readOnly (fuel c : ℕ) : Io.ReadOnly (freeChain (diskFs false env m) fuel c) := by
  induction fuel generalizing c with
  | zero => exact .pure ()
  | succ fuel ih =>
    rw [freeChain]
    split_ifs
    · exact .bind (getNextCluster_readOnly c) (fun next =>
        .bind (setCluster_readOnly c 0) (fun _ => ih next))
    · exact .pure ()

inductive EntryOp where
  | create
  | mkdir
  | delete

def EntryOp.run {σ : Type} (fs : Fs σ) (path : List UInt8) : EntryOp → Io σ Bool
  | .create => createFile fs path
  | .mkdir => Fat32.mkdir fs path
  | .delete => deleteFile fs path

/-- Once the table is changed, `kmalloc` has memory for the directory. For a deletion this matters
only if there is a chain to free. -/
def EntryOp.MemoryLasts (fs : Fs Buf) (path : List UInt8) (w : World Buf) : EntryOp → Prop
  | .create => ∀ p, (planEntry fs path w).1 = some p →
      fs.env.kmallocOk (planEntry fs path w).2.allocs = true
  | .mkdir => ∀ p, (planEntry fs path w).1 = some p →
      fs.env.kmallocOk (planEntry fs path w).2.allocs = true →
        fs.env.kmallocOk ((planEntry fs path w).2.allocs + 1) = true
  | .delete => ∀ f, (resolvePath fs path w).1 = some f → entryIsDir f.entry = false →
      validCluster (entryCluster f.entry) = true →
        (getNextCluster fs (entryCluster f.entry) w).1 ≠ 0 →
          fs.env.kmallocOk (resolvePath fs path w).2.allocs = true

theorem EntryOp.run_readOnly (hg : Geometry m) (op : EntryOp) :
    Io.ReadOnly (op.run (diskFs false env m) path) := by
  have hplan : Io.ReadOnly (planEntry (diskFs false env m) path) :=
    fun w => (planEntry_reads hg path w).1
  cases op with
  | create =>
    refine .bind hplan (fun r => ?_)
    cases r with
    | none => exact .pure false
    | some p => exact .bind (setCluster_readOnly _ _) (fun _ => writeEntryAt_readOnly _ _ _)
  | mkdir =>
    refine .bind hplan (fun r => ?_)
    cases r with
    | none => exact .pure false
    | some p =>
      refine .bind (setCluster_readOnly _ _) (fun _ => .bind (.kmallocBuf env) (fun got => ?_))
      cases got with
      | none => exact .bind (setCluster_readOnly _ _) (fun _ => .pure false)
      | some buf =>
        exact .bind (.vfsWriteDevice _ _ _) (fun _ => writeEntryAt_readOnly _ _ _)
  | delete =>
    refine .bind (resolvePath_readOnly path) (fun r => ?_)
    cases r with
    | none => exact .pure false
    | some f =>
      dsimp only
      split_ifs
      · exact .pure false
      · exact .bind (freeChain_readOnly _ _) (fun _ => writeEntryAt_readOnly _ _ _)

section

variable (hg : Geometry m)
include hg

theorem createFile_unchanged_iff :
    ((createFile (diskFs true env m) path w).1 = false →
      (createFile (diskFs true env m) path w).2.dev = w.dev) ↔
        EntryOp.create.MemoryLasts (diskFs true env m) path w := by
  obtain ⟨hdev, hspec⟩ : (planEntry (diskFs true env m) path w).2.dev = w.dev ∧ _ :=
    planEntry_reads hg path w
  simp only [createFile, EntryOp.MemoryLasts, bind_apply, diskFs_env]
  generalize planEntry (diskFs true env m) path w = r at hdev hspec ⊢
  obtain ⟨plan, w₁⟩ := r
  cases plan with
  | none => simpa using hdev
  | some p =>
    obtain ⟨hcluster, hfree⟩ := hspec p rfl
    rw [← hdev] at hfree
    simp only [bind_apply, setCluster_disk hg hcluster.2, writeEntryAt_fst, write_true,
      Option.some.injEq, forall_eq']
    cases hok : env.kmallocOk w₁.allocs with
    | true => simp
    | false =>
      rw [writeEntryAt_of_fail hok, ← hdev]
      simpa using tableSet_ne hfree

theorem mkdir_unchanged_iff :
    ((mkdir (diskFs true env m) path w).1 = false →
      (mkdir (diskFs true env m) path w).2.dev = w.dev) ↔
        EntryOp.mkdir.MemoryLasts (diskFs true env m) path w := by
  obtain ⟨hdev, hspec⟩ : (planEntry (diskFs true env m) path w).2.dev = w.dev ∧ _ :=
    planEntry_reads hg path w
  simp only [mkdir, EntryOp.MemoryLasts, bind_apply, diskFs_env]
  generalize planEntry (diskFs true env m) path w = r at hdev hspec ⊢
  obtain ⟨plan, w₁⟩ := r
  cases plan with
  | none => simpa using hdev
  | some p =>
    obtain ⟨hcluster, hfree⟩ := hspec p rfl
    have hoff := hg.clusterOffset_eq hcluster
    have hend := hg.cluster_lt hcluster
    rw [← hdev] at hfree ⊢
    simp only [bind_apply, setCluster_disk hg hcluster.2, write_true, Option.some.injEq,
      forall_eq']
    generalize hw₂ : ({ w₁ with dev := tableSet m w₁.dev p.cluster 0x0FFFFFFF } : World Buf) = w₂
    have hallocs : w₁.allocs = w₂.allocs := by rw [← hw₂]
    have hdisk : w₂.dev = tableSet m w₁.dev p.cluster 0x0FFFFFFF := by rw [← hw₂]
    rw [hallocs]
    cases hok : env.kmallocOk w₂.allocs with
    | false =>
      simp only [kmallocBuf_of_fail hok, bind_apply, setCluster_disk hg hcluster.2,
        write_true, bump_dev, hdisk, tableSet_rollback hfree]
      simp
    | true =>
      simp only [kmallocBuf_of_ok hok, bind_apply, diskFs_dev, diskFs_mount, hoff,
        vfsWriteDevice_disk hend, write_true, writeEntryAt_fst, bump_dev, forall_const]
      cases hok' : env.kmallocOk (w₂.allocs + 1) with
      | true => simp [hok']
      | false =>
        rw [writeEntryAt_of_fail hok']
        suffices hne : clusterSet m w₂.dev p.cluster (newDirCluster p.cluster p.parent) ≠ w₁.dev by
          simpa [hok', clusterSet] using hne
        intro he
        rw [← he, nextOf_clusterSet hg hcluster.2, hdisk, nextOf_tableSet, if_pos rfl] at hfree
        exact absurd hfree (by decide)

omit hg in
theorem deleteFile_unchanged_iff :
    ((deleteFile (diskFs true env m) path w).1 = false →
      (deleteFile (diskFs true env m) path w).2.dev = w.dev) ↔
        EntryOp.delete.MemoryLasts (diskFs true env m) path w := by
  have hdev : (resolvePath (diskFs true env m) path w).2.dev = w.dev := resolvePath_readOnly path w
  simp only [deleteFile, EntryOp.MemoryLasts, bind_apply, diskFs_env]
  generalize resolvePath (diskFs true env m) path w = r at hdev ⊢
  obtain ⟨found, w₁⟩ := r
  cases found with
  | none => simpa using hdev
  | some f =>
    simp only [Option.some.injEq, forall_eq', getNextCluster_at]
    cases hdir : entryIsDir f.entry with
    | true => simpa using hdev
    | false =>
      have hfree : (freeChain (diskFs true env m) (2 ^ 28 - 1 + 1)
        (entryCluster f.entry) w₁).2.dev =
          w₁.dev ↔ _ := freeChain_dev_eq_iff
      simp only [Bool.false_eq_true, if_false, bind_apply, writeEntryAt_fst, freeChain_allocs,
        forall_const]
      cases hok : env.kmallocOk w₁.allocs with
      | true => simp
      | false =>
        rw [writeEntryAt_of_fail (by rw [freeChain_allocs]; exact hok)]
        rw [getNextCluster_at, hdev] at hfree
        simpa [hdev] using hfree

end

/-- Whether a failed operation leaves the device as it was: it does on every call exactly when the
device has no write function or memory lasts until the directory is written. -/
theorem failed_unchanged_iff (bpb : BootSector) (hacc : bpb.accepted = true)
    (hsize : bpb.belowFourGiB) (m : Mount) (hm : m = Mount.ofBootSector bpb) (writable : Bool)
    (env : Env Buf) (op : EntryOp) (path : List UInt8) (w : World Buf) :
    ((op.run (diskFs writable env m) path w).1 = false →
      (op.run (diskFs writable env m) path w).2.dev = w.dev) ↔
        (writable = true → op.MemoryLasts (diskFs writable env m) path w) := by
  subst hm
  have hg := geometry_ofBootSector hacc hsize
  cases writable with
  | false =>
    apply iff_of_true (fun _ => op.run_readOnly hg w)
    intro hfalse
    cases hfalse
  | true =>
    rw [forall_prop_of_true rfl]
    cases op with
    | create => exact createFile_unchanged_iff hg
    | mkdir => exact mkdir_unchanged_iff hg
    | delete => exact deleteFile_unchanged_iff

/-- Creating a file that is there fails on the small volume without a trace. -/
theorem failed_unchanged_small :
    (createFile (diskFs true plainEnv smallMount) [0x41]
      (createFile (diskFs true plainEnv smallMount) [0x41]
        (bootWorld (emptyVolume smallMount))).2).2.dev =
    (createFile (diskFs true plainEnv smallMount) [0x41]
        (bootWorld (emptyVolume smallMount))).2.dev :=
  (failed_unchanged_iff smallBootSector smallBootSector_accepted smallBootSector_belowFourGiB
    smallMount rfl true plainEnv .create [0x41]
    (createFile (diskFs true plainEnv smallMount) [0x41] (bootWorld (emptyVolume smallMount))).2).2
    (fun _ _ _ => rfl) (by decide +kernel)

def shortEnv : Env Buf := { plainEnv with kmallocOk := fun n => n != 2 }

/-- Creating a file on the small volume fails when the third request for memory does, and leaves a
cluster marked as used that no entry names. -/
theorem failed_create_leaks :
    (createFile (diskFs true shortEnv smallMount) [0x41] (bootWorld (emptyVolume smallMount))).1 =
        false ∧
      nextOf smallMount (bootWorld (emptyVolume smallMount)).dev 3 = 0 ∧
      nextOf smallMount (createFile (diskFs true shortEnv smallMount) [0x41]
        (bootWorld (emptyVolume smallMount))).2.dev 3 = 0x0FFFFFFF := by
  decide +kernel

end MicroK.Fat32
