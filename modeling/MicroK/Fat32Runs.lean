import MicroK.Fat32Write
import MicroK.Runs

/-!
# Sequences of file operations

Whatever files and directories are created, written and deleted, and in whatever order, a
consistent volume stays consistent. This is so even where an operation overwrites the wrong
directory entry: the chain of that entry is lost, but no chain is shared, cut or marked free.
-/

namespace MicroK.Fat32

variable {m : Mount} {env : Env Buf} {w : World Buf} {data : Buf} {size : ℕ}
variable {c d i : ℕ} {l l' : List ℕ} {path : List UInt8}

theorem write_disk (hg : Geometry m) (hok : env.kmallocOk w.allocs = true)
    (hl : Chain m (viewOf m w.dev) c l) :
    ∃ disk' l' k, write (diskFs true env m) c 0 size data w = (k, { w.bump 1 with dev := disk' }) ∧
      Written m data w.dev disk' c l l' 0 k ∧ k ≤ size := by
  have hc := hl.inRange hl.head_mem
  obtain ⟨disk', l', k, hrun, hw, hk⟩ : ∃ disk' l' k, writeLoop (diskFs true env m) size data size
      c 0 0 (env.heapBytes w.allocs) (w.bump 1) = (k, { w.bump 1 with dev := disk' }) ∧
      Written m data w.dev disk' c l l' 0 k ∧ k ≤ max 0 size :=
    writeLoop_disk (w := w.bump 1) hg hl.leads
  refine ⟨disk', l', k, ?_, hw, by omega⟩
  rw [write, if_pos (validCluster_of_inRange hg hc)]
  simp only [diskFs_env, diskFs_mount, Nat.zero_div, Nat.zero_mod, skipClusters, Io.bind_apply,
    Io.pure_apply, kmallocBuf_of_ok hok]
  exact hrun

def entryUpdated (m : Mount) (disk : Buf) (f : Found) (k : ℕ) : Buf :=
  if entrySize f.entry < k then slotSet m disk f.cluster f.index (withSize f.entry k) else disk

theorem writeFile_disk (hg : Geometry m) (hok : ∀ n, env.kmallocOk n = true)
    (hc : Consistent m (viewOf m w.dev)) {f : Found}
    (hf : resolvePathIn m (viewOf m w.dev) path = some f) (hfile : entryIsFile f.entry = true)
    (hl : Chain m (viewOf m w.dev) (entryCluster f.entry) l) :
    ∃ n disk' l' k, writeFile (diskFs true env m) path data size w =
        (k == size, { w.bump n with dev := entryUpdated m disk' f k }) ∧
      Written m data w.dev disk' (entryCluster f.entry) l l' 0 k ∧ k ≤ size := by
  obtain ⟨hlive, -⟩ := hc.live_of_resolvePathIn hg hf
  obtain ⟨n, hn⟩ : ∃ n, resolvePath (diskFs true env m) path w = _ :=
    (resolvePath_disk hg hc path).of_ok hok
  rw [hf] at hn
  obtain ⟨disk', l', k, hrun, hw, hk⟩ : ∃ disk' l' k, write (diskFs true env m)
      (entryCluster f.entry) 0 size data (w.bump n) =
        (k, { (w.bump n).bump 1 with dev := disk' }) ∧
      Written m data w.dev disk' (entryCluster f.entry) l l' 0 k ∧ k ≤ size :=
    write_disk (w := w.bump n) hg (hok _) hl
  by_cases hgrew : entrySize f.entry < k
  · refine ⟨n + 1 + 1, disk', l', k, ?_, hw, hk⟩
    simp only [writeFile, Io.bind_apply, hn, hfile, if_true, hrun, if_pos hgrew, entryUpdated,
      writeEntryAt_disk hg hlive.dir.inRange hlive.lt (hok _)]
    rfl
  · refine ⟨n + 1, disk', l', k, ?_, hw, hk⟩
    simp only [writeFile, Io.bind_apply, hn, hfile, if_true, hrun, if_neg hgrew, entryUpdated]
    rfl

theorem writeFile_disk_of_not_file {writable : Bool} (hg : Geometry m)
    (hok : ∀ n, env.kmallocOk n = true) (hc : Consistent m (viewOf m w.dev))
    (hf : ∀ f, resolvePathIn m (viewOf m w.dev) path = some f → entryIsFile f.entry = false) :
    ∃ n, writeFile (diskFs writable env m) path data size w = (false, w.bump n) := by
  obtain ⟨n, hn⟩ : ∃ n, resolvePath (diskFs writable env m) path w = _ :=
    (resolvePath_disk hg hc path).of_ok hok
  refine ⟨n, ?_⟩
  cases hres : resolvePathIn m (viewOf m w.dev) path with
  | none => simp only [writeFile, Io.bind_apply, hn, hres, Io.pure_apply]
  | some f =>
    have hno := hf f hres
    simp [writeFile, Io.bind_apply, hn, hres, hno, Bool.false_eq_true, Io.pure_apply]

section

variable {disk disk' : Buf} {f : Found} {k : ℕ}

theorem withSize_of_lt (e : Buf) {j : ℕ} (hj : j < 28) : withSize e k j = e j := by
  rw [withSize, Buf.setLe32, Buf.copyAt_of_not_mem (.inl hj)]

theorem not_isDir_of_isFile {e : Buf} (h : entryIsFile e = true) : entryIsDir e = false := by
  simp only [entryIsFile, Bool.and_eq_true, beq_iff_eq] at h
  simp [entryIsDir, h.2]

theorem nextOf_entryUpdated (hg : Geometry m) (hd : d < m.maxClusters) :
    nextOf m (entryUpdated m disk f k) d = nextOf m disk d := by
  unfold entryUpdated
  split_ifs
  · exact nextOf_slotSet hg hd _
  · rfl

theorem slot_entryUpdated_of_ne (hf : InRange m f.cluster) (hd : InRange m d)
    (hfi : f.index < m.slots) (hi : i < m.slots) (hne : (d, i) ≠ (f.cluster, f.index)) :
    (viewOf m (entryUpdated m disk f k)).slot d i = (viewOf m disk).slot d i := by
  unfold entryUpdated
  split_ifs
  · exact slot_slotSet_of_ne hf.1 hd.1 hfi hi hne _
  · rfl

theorem slot_entryUpdated_self (he : (viewOf m disk).slot f.cluster f.index = f.entry) :
    (viewOf m (entryUpdated m disk f k)).slot f.cluster f.index =
      if entrySize f.entry < k then withSize f.entry k else f.entry := by
  unfold entryUpdated
  split_ifs
  · refine slot_slotSet_self (fun j hj => ?_)
    rw [withSize, Buf.setLe32, Buf.copyAt_of_not_mem (by omega), ← he]
    exact slot_zero hj
  · exact he

theorem Consistent.not_dirCluster {v : View} (hc : Consistent m v) {k : ℕ} (hlive : Live m v k i)
    (hfile : entryIsFile (v.slot k i) = true) (hl : Chain m v (entryCluster (v.slot k i)) l)
    (hcl : c ∈ l) : ¬ DirCluster m v c := by
  rintro ⟨h, r, hdir, hr, hcr⟩
  cases hdir with
  | root => exact hc.root_disjoint hlive hl hr c hcl hcr
  | @sub h' k' i' l' hdir hl' hk' hi' he' hdot' =>
    have hlive' : Live m v k' i' := ⟨⟨_, _, hdir, hl', hk'⟩, hi', entryIsUsable_of_isDir he', hdot'⟩
    refine hc.disjoint hlive hlive' (fun he => ?_) hl hr c hcl hcr
    cases he
    rw [not_isDir_of_isFile hfile] at he'
    cases he'

theorem Written.slot_eq (hw : Written m data disk disk' c l l' 0 k) (hd : InRange m d)
    (hdl : d ∉ l') (hi : i < m.slots) : (viewOf m disk').slot d i = (viewOf m disk).slot d i := by
  refine slot_congr hi (fun j hlo hhi => ?_)
  have hbyte := hw.bytes_eq d hd hdl (j - m.clusterPos d) (by omega)
  rwa [Nat.add_sub_cancel' hlo] at hbyte

theorem Written.apart (hw : Written m data disk disk' c l l' 0 k) {h : ℕ} {r : List ℕ}
    (hr : Chain m (viewOf m disk) h r) (hdisj : ∀ e ∈ l, e ∉ r) : ∀ e ∈ l', e ∉ r := by
  obtain ⟨fresh, rfl, hfresh⟩ := hw.grown
  intro e hel
  rcases List.mem_append.1 hel with hel | hel
  · exact hdisj e hel
  · exact hr.not_mem_of_free (hfresh e hel)

theorem Written.not_dirCluster (hc : Consistent m (viewOf m disk)) {k₀ i₀ : ℕ}
    (hlive : Live m (viewOf m disk) k₀ i₀) (hfile : entryIsFile ((viewOf m disk).slot k₀ i₀) = true)
    (hl : Chain m (viewOf m disk) (entryCluster ((viewOf m disk).slot k₀ i₀)) l)
    (hw : Written m data disk disk' c l l' 0 k) (hd : DirCluster m (viewOf m disk) d) : d ∉ l' := by
  obtain ⟨h, r, hh, hr, hdr⟩ := hd
  intro hdl
  refine hw.apart hr (fun e hel her => ?_) d hdl hdr
  exact hc.not_dirCluster hlive hfile hl hel ⟨h, r, hh, hr, her⟩

theorem Written.chain (hg : Geometry m) (hl : Chain m (viewOf m disk) (entryCluster f.entry) l)
    (hw : Written m data disk disk' (entryCluster f.entry) l l' 0 k) :
    Chain m (viewOf m (entryUpdated m disk' f k)) (entryCluster f.entry) l' := by
  refine ⟨hw.leads.congr (fun c hcl => nextOf_entryUpdated hg (hw.leads.ok_of_mem hcl).2), ?_⟩
  obtain ⟨fresh, hl', -⟩ := hw.grown
  rw [hl']
  exact List.append_ne_nil_of_left_ne_nil hl.ne_nil fresh

theorem update_writtenDisk (hg : Geometry m) (hc : Consistent m (viewOf m disk))
    (hf : resolvePathIn m (viewOf m disk) path = some f) (hfile : entryIsFile f.entry = true)
    (hl : Chain m (viewOf m disk) (entryCluster f.entry) l)
    (hw : Written m data disk disk' (entryCluster f.entry) l l' 0 k) :
    Update m (viewOf m disk) (viewOf m (entryUpdated m disk' f k)) f.cluster f.index := by
  obtain ⟨hlive, he⟩ := hc.live_of_resolvePathIn hg hf
  have hfc := hlive.dir.inRange
  have hdir : ∀ {d}, DirCluster m (viewOf m disk) d → d ∉ l' :=
    fun hd => hw.not_dirCluster hc hlive (he ▸ hfile) (he ▸ hl) hd
  have hnext : ∀ {h r c}, Chain m (viewOf m disk) h r → (∀ c ∈ l, c ∉ r) → c ∈ r →
      nextOf m (entryUpdated m disk' f k) c = nextOf m disk c := by
    intro h r c hr hdisj hcr
    have hlt := (hr.inRange hcr).2
    rw [nextOf_entryUpdated hg hlt, hw.next_eq c hlt (fun hcl => hw.apart hr hdisj c hcl hcr)]
  have hself := slot_entryUpdated_self (k := k)
    ((hw.slot_eq hfc (hdir hlive.dir) hlive.lt).trans he.symm)
  have hhead : ∀ j < 28, (viewOf m (entryUpdated m disk' f k)).slot f.cluster f.index j =
      f.entry j := by
    intro j hj
    rw [hself]
    split_ifs
    · exact withSize_of_lt f.entry hj
    · rfl
  obtain ⟨hlfn, -, hisDir, -, hcluster⟩ := entry_congr hhead
  have hroot : ∀ {r}, Chain m (viewOf m disk) m.rootCluster r → ∀ c ∈ l, c ∉ r :=
    fun hr => hc.root_disjoint hlive (he ▸ hl) hr
  have hother : ∀ {k i r}, Live m (viewOf m disk) k i → (k, i) ≠ (f.cluster, f.index) →
      Chain m (viewOf m disk) (entryCluster ((viewOf m disk).slot k i)) r → ∀ c ∈ l, c ∉ r :=
    fun hlive' hne hr => hc.disjoint hlive hlive' (Ne.symm hne) (he ▸ hl) hr
  refine ⟨?_, ?_, ?_, ?_, ?_⟩
  · intro d i hd hi hne
    rw [slot_entryUpdated_of_ne hfc hd.inRange hlive.lt hi hne,
      hw.slot_eq hd.inRange (hdir hd) hi]
  · rw [hlfn, he]
    exact entryIsLfn_of_usable hlive.usable
  · intro r c hr hcr
    exact hnext hr (hroot hr) hcr
  · intro d i r c hlive' hne hr hcr
    exact hnext hr (hother hlive' hne hr) hcr
  · intro _
    rw [hcluster]
    refine ⟨l', hw.chain hg hl, ?_, ?_, ?_⟩
    · intro r hr
      exact hw.apart hr (hroot hr)
    · intro d i r hlive' hne hr
      exact hw.apart hr (hother hlive' hne hr)
    · intro hnew
      rw [hisDir, not_isDir_of_isFile hfile] at hnew
      cases hnew

theorem consistent_writtenDisk (hg : Geometry m) (hc : Consistent m (viewOf m disk))
    (hf : resolvePathIn m (viewOf m disk) path = some f) (hfile : entryIsFile f.entry = true)
    (hl : Chain m (viewOf m disk) (entryCluster f.entry) l)
    (hw : Written m data disk disk' (entryCluster f.entry) l l' 0 k) :
    Consistent m (viewOf m (entryUpdated m disk' f k)) := by
  have hslots := hg.slots_pos
  exact hc.update hg.max_lt (by omega) (update_writtenDisk hg hc hf hfile hl hw)

end

inductive Op where
  | create (filename : List UInt8)
  | write (filename : List UInt8) (buffer : Buf) (size : ℕ)
  | delete (filename : List UInt8)
  | mkdir (path : List UInt8)

def step (fs : Fs Buf) (w : World Buf) : Op → World Buf
  | .create filename => (createFile fs filename w).2
  | .write filename buffer size => (writeFile fs filename buffer size w).2
  | .delete filename => (deleteFile fs filename w).2
  | .mkdir path => (Fat32.mkdir fs path w).2

variable {m : Mount} {env : Env Buf} {w : World Buf} (hg : Geometry m)
  (hok : ∀ n, env.kmallocOk n = true) (hc : Consistent m (viewOf m w.dev))
include hg hok hc

variable (filename : List UInt8)

theorem consistent_createFile :
    Consistent m (viewOf m (createFile (diskFs true env m) filename w).2.dev) := by
  obtain ⟨n, hn⟩ : ∃ n, createFile (diskFs true env m) filename w = _ :=
    createFile_disk hg hok hc filename
  rw [hn]
  cases hp : entryPlan m w.dev filename with
  | none => exact hc
  | some p => exact consistent_createdDisk hg hc (slotPlan_of_entryPlan hp)

theorem consistent_mkdir (path : List UInt8) :
    Consistent m (viewOf m (mkdir (diskFs true env m) path w).2.dev) := by
  obtain ⟨n, hn⟩ : ∃ n, mkdir (diskFs true env m) path w = _ := mkdir_disk hg hok hc path
  rw [hn]
  cases hp : entryPlan m w.dev path with
  | none => exact hc
  | some p => exact consistent_mkdirDisk hg hc (slotPlan_of_entryPlan hp)

theorem consistent_deleteFile :
    Consistent m (viewOf m (deleteFile (diskFs true env m) filename w).2.dev) := by
  obtain ⟨n, hn⟩ : ∃ n, deleteFile (diskFs true env m) filename w = _ :=
    deleteFile_disk hg hok hc filename
  rw [hn]
  cases hf : resolvePathIn m (viewOf m w.dev) filename with
  | none => exact hc
  | some f =>
    dsimp only
    split_ifs
    · exact hc
    · exact consistent_deletedDisk hg hc hf

theorem consistent_writeFile (buffer : Buf) (size : ℕ) :
    Consistent m (viewOf m (writeFile (diskFs true env m) filename buffer size w).2.dev) := by
  by_cases hf : ∃ f, resolvePathIn m (viewOf m w.dev) filename = some f ∧ entryIsFile f.entry = true
  · obtain ⟨f, hf, hfile⟩ := hf
    obtain ⟨hlive, he⟩ := hc.live_of_resolvePathIn hg hf
    obtain ⟨l, hl⟩ := hc.entry_chain hlive
    rw [← he] at hl
    obtain ⟨n, disk', l', k, hrun, hw, -⟩ : ∃ n disk' l' k, writeFile (diskFs true env m) filename
        buffer size w = _ ∧ Written m buffer w.dev disk' _ l l' 0 k ∧ _ :=
      writeFile_disk hg hok hc hf hfile hl
    rw [hrun]
    exact consistent_writtenDisk hg hc hf hfile hl hw
  · obtain ⟨n, hn⟩ : ∃ n, writeFile (diskFs true env m) filename buffer size w = _ :=
      writeFile_disk_of_not_file hg hok hc
        (fun f hres => Bool.eq_false_iff.2 (fun hfile => hf ⟨f, hres, hfile⟩))
    rw [hn]
    exact hc

theorem consistent_step (op : Op) :
    Consistent m (viewOf m (step (diskFs true env m) w op).dev) := by
  cases op with
  | create filename => exact consistent_createFile hg hok hc filename
  | write filename buffer size => exact consistent_writeFile hg hok hc filename buffer size
  | delete filename => exact consistent_deleteFile hg hok hc filename
  | mkdir path => exact consistent_mkdir hg hok hc path

theorem consistent_run (ops : List Op) :
    Consistent m (viewOf m (Runs.run (step (diskFs true env m)) w ops).dev) :=
  Runs.run_invariant_of_step (I := fun w => Consistent m (viewOf m w.dev))
    (fun _ op hc => consistent_step hg hok hc op) w ops hc

omit hg hok hc

/-- The live entries head disjoint chains that end properly, without cycles, and no cluster of
these chains or of the root directory is marked free. -/
structure ChainsIntact (m : Mount) (v : View) : Prop where
  root_chain : ∃ l, Chain m v m.rootCluster l ∧ l.Nodup ∧ ∀ c ∈ l, v.next c ≠ 0
  entry_chain : ∀ {k i}, Live m v k i →
    ∃ l, Chain m v (entryCluster (v.slot k i)) l ∧ l.Nodup ∧ ∀ c ∈ l, v.next c ≠ 0
  disjoint : ∀ {k i k' i' l l'}, Live m v k i → Live m v k' i' → (k, i) ≠ (k', i') →
    Chain m v (entryCluster (v.slot k i)) l → Chain m v (entryCluster (v.slot k' i')) l' →
    ∀ c ∈ l, c ∉ l'

theorem Consistent.chainsIntact {v : View} (hc : Consistent m v) (hmax : m.maxClusters < 2 ^ 25) :
    ChainsIntact m v where
  root_chain := by
    obtain ⟨l, hl⟩ := hc.root_chain
    exact ⟨l, hl, hl.nodup hmax, fun c hcl => hl.next_ne_zero hcl⟩
  entry_chain hlive := by
    obtain ⟨l, hl⟩ := hc.entry_chain hlive
    exact ⟨l, hl, hl.nodup hmax, fun c hcl => hl.next_ne_zero hcl⟩
  disjoint := hc.disjoint

/-- Any calls on a consistent volume below 4 GiB leave its chains intact, on a disk that answers
and with memory to be had. -/
theorem run_chainsIntact (bpb : BootSector) (hacc : bpb.accepted = true) (hsize : bpb.belowFourGiB)
    (m : Mount) (hm : m = Mount.ofBootSector bpb) (env : Env Buf)
    (hok : ∀ n, env.kmallocOk n = true) (w : World Buf) (hc : Consistent m (viewOf m w.dev))
    (ops : List Op) :
    ChainsIntact m (viewOf m (Runs.run (step (diskFs true env m)) w ops).dev) := by
  subst hm
  have hg := geometry_ofBootSector hacc hsize
  exact (consistent_run hg hok hc ops).chainsIntact hg.max_lt

def emptyVolume (m : Mount) : Buf := tableSet m (fun _ => 0) m.rootCluster 0x0FFFFFFF

theorem slot_emptyVolume (hg : Geometry m) (hroot : m.rootCluster < m.maxClusters) {c i : ℕ}
    (hi : i < m.slots) : (viewOf m (emptyVolume m)).slot c i = fun _ => 0 := by
  rw [emptyVolume, slot_tableSet hg hroot hi]
  funext j
  exact ite_self 0

theorem chain_emptyVolume (hroot : InRange m m.rootCluster) :
    Chain m (viewOf m (emptyVolume m)) m.rootCluster [m.rootCluster] := by
  apply chain_singleton hroot
  change nextOf m (emptyVolume m) m.rootCluster = _
  rw [emptyVolume, nextOf_tableSet, if_pos rfl]
  rfl

theorem consistent_emptyVolume (hg : Geometry m) (hroot : InRange m m.rootCluster) :
    Consistent m (viewOf m (emptyVolume m)) := by
  have hnone : ∀ {k i}, ¬ Live m (viewOf m (emptyVolume m)) k i := by
    intro k i hlive
    have husable := hlive.usable
    rw [slot_emptyVolume hg hroot.2 hlive.lt] at husable
    exact absurd husable (by decide)
  refine ⟨⟨_, chain_emptyVolume hroot⟩, ?_, ?_, ?_⟩
  · intro k i hlive
    exact absurd hlive hnone
  · intro k i l r hlive
    exact absurd hlive hnone
  · intro k i k' i' l l' hlive
    exact absurd hlive hnone

def smallBootSector : BootSector where
  bytesPerSector := 512
  sectorsPerCluster := 1
  reservedSectors := 32
  fatCount := 1
  sectorsPerFat16 := 0
  sectorsPerFat32 := 1
  rootCluster := 2
  bootSignature := 0x29
  signature := 0xAA55

def plainEnv : Env Buf where
  kmallocOk _ := true
  heapBytes _ _ := 0
  stackBytes _ _ := 0
  abort _ := false

theorem smallBootSector_accepted : smallBootSector.accepted = true := by decide

theorem smallBootSector_belowFourGiB : smallBootSector.belowFourGiB := by
  norm_num [BootSector.belowFourGiB, smallBootSector]

def smallMount : Mount := Mount.ofBootSector smallBootSector

theorem smallMount_geometry : Geometry smallMount :=
  geometry_ofBootSector smallBootSector_accepted smallBootSector_belowFourGiB

def bootWorld (disk : Buf) : World Buf := ⟨disk, 0, 0⟩

@[simp] theorem bootWorld_dev (disk : Buf) : (bootWorld disk).dev = disk := rfl

theorem consistent_small :
    Consistent smallMount (viewOf smallMount (bootWorld (emptyVolume smallMount)).dev) := by
  rw [bootWorld_dev]
  exact consistent_emptyVolume smallMount_geometry (by constructor <;> decide)

/-- A file, a directory and data in the file, on the small volume. -/
theorem run_chainsIntact_small :
    ChainsIntact smallMount (viewOf smallMount
      (Runs.run (step (diskFs true plainEnv smallMount)) (bootWorld (emptyVolume smallMount))
        [.create [0x41], .mkdir [0x44], .write [0x41] (fun _ => 7) 2000, .delete [0x41]]).dev) :=
  run_chainsIntact smallBootSector smallBootSector_accepted smallBootSector_belowFourGiB smallMount
    rfl plainEnv (fun _ => rfl) (bootWorld (emptyVolume smallMount)) consistent_small _

end MicroK.Fat32
