import MicroK.Fat32Runs

/-!
# What creating a file or directory does to the other entries

`fat32_find_free_slot_in_dir` walks through all clusters of a directory but returns only an index,
and `fat32_write_entry_at` uses it in the first cluster. So a successful call adds its entry and
keeps all others exactly when the first cluster of the directory has a free slot, the device can
write, and the short name does not begin with the mark of a deleted entry.
-/

namespace MicroK.Fat32

open List

variable {m : Mount} {writable : Bool} {env : Env Buf} {w : World Buf} {path : List UInt8}

theorem writeEntryAt_of_fail {fs : Fs Buf} (hfail : fs.env.kmallocOk w.allocs = false) (c i : ℕ)
    (e : Buf) : writeEntryAt fs c i e w = (false, w.bump 1) := by
  simp only [writeEntryAt, Io.bind_apply, kmallocBuf_of_fail hfail, Io.pure_apply]

theorem writeEntryAt_of_success (hg : Geometry m) {c i : ℕ} (hc : InRange m c) (hi : i < m.slots)
    {e : Buf} (hs : (writeEntryAt (diskFs writable env m) c i e w).1 = true) :
    (writeEntryAt (diskFs writable env m) c i e w).2 =
      (w.bump 1).write writable (slotSet m w.dev c i e) := by
  cases hok : env.kmallocOk w.allocs with
  | false =>
    rw [writeEntryAt_of_fail hok] at hs
    cases hs
  | true => rw [writeEntryAt_disk hg hc hi hok]

section

variable (hg : Geometry m) (hc : Consistent m (viewOf m w.dev))
include hg hc

theorem createFile_of_success (hs : (createFile (diskFs writable env m) path w).1 = true) :
    ∃ p n, slotPlan m w.dev path = some p ∧ (createFile (diskFs writable env m) path w).2 =
      (w.bump n).write writable (createdDisk m w.dev p) := by
  obtain ⟨n, hn | ⟨p, hp, hn⟩⟩ : ∃ n, planEntry (diskFs writable env m) path w = _ ∨ _ :=
    planEntry_cases hg hc path
  · simp only [createFile, Io.bind_apply, hn] at hs
    cases hs
  · obtain ⟨-, hparent, hindex, hcluster, -⟩ := hc.slotPlan_spec hg hp
    simp only [createFile, Io.bind_apply, hn, setCluster_disk hg hcluster.2] at hs ⊢
    refine ⟨p, n + 1, hp, (writeEntryAt_of_success hg hparent hindex hs).trans ?_⟩
    cases writable <;> rfl

theorem mkdir_of_success (hs : (mkdir (diskFs writable env m) path w).1 = true) :
    ∃ p n, slotPlan m w.dev path = some p ∧ (mkdir (diskFs writable env m) path w).2 =
      (w.bump n).write writable (mkdirDisk m w.dev p) := by
  obtain ⟨n, hn | ⟨p, hp, hn⟩⟩ : ∃ n, planEntry (diskFs writable env m) path w = _ ∨ _ :=
    planEntry_cases hg hc path
  · simp only [mkdir, Io.bind_apply, hn] at hs
    cases hs
  · obtain ⟨-, hparent, hindex, hcluster, -⟩ := hc.slotPlan_spec hg hp
    have hoff := hg.clusterOffset_eq hcluster
    have hend := hg.cluster_lt hcluster
    simp only [mkdir, Io.bind_apply, hn, setCluster_disk hg hcluster.2, diskFs_env, diskFs_dev,
      diskFs_mount] at hs ⊢
    generalize hw₁ : (w.bump n).write writable (tableSet m (w.bump n).dev p.cluster 0x0FFFFFFF) =
      w₁ at hs ⊢
    cases hok : env.kmallocOk w₁.allocs with
    | false =>
      rw [kmallocBuf_of_fail hok] at hs
      cases hs
    | true =>
      simp only [kmallocBuf_of_ok hok, Io.bind_apply, hoff, vfsWriteDevice_disk hend] at hs ⊢
      refine ⟨p, n + 1 + 1, hp, (writeEntryAt_of_success hg hparent hindex hs).trans ?_⟩
      rw [← hw₁]
      cases writable <;> rfl

end

/-- A slot of a directory that holds something, be it a file, a directory, a label or a part of a
long name. -/
structure InUse (m : Mount) (v : View) (k i : ℕ) : Prop where
  dir : DirCluster m v k
  lt : i < m.slots
  not_free : isFreeSlot (v.slot k i) = false

/-- Between two views, the entries in use are kept and the directory with the first cluster
`parent` has got exactly one more. -/
structure EntryAdded (m : Mount) (v v' : View) (parent : ℕ) : Prop where
  kept : ∀ {k i}, InUse m v k i → v'.slot k i = v.slot k i
  added : ∃! loc : ℕ × ℕ, (∃ l, Chain m v' parent l ∧ loc.1 ∈ l) ∧ loc.2 < m.slots ∧
    isFreeSlot (v.slot loc.1 loc.2) = true ∧ isFreeSlot (v'.slot loc.1 loc.2) = false

theorem isFreeSlot_newEntry (name : Buf) (attr : UInt8) (cluster : ℕ) :
    isFreeSlot (newEntry name attr cluster) = isFreeSlot name := rfl

theorem isFreeSlot_of_slotPlan (hg : Geometry m) {disk : Buf} (hc : Consistent m (viewOf m disk))
    {p : EntryPlan} (hp : slotPlan m disk path = some p) {i : ℕ} (hi : i < m.slots)
    (hfree : isFreeSlot ((viewOf m disk).slot p.parent i) = true) :
    isFreeSlot ((viewOf m disk).slot p.parent p.index) = true := by
  obtain ⟨-, hparent, hslot, -⟩ := slotPlan_eq_some.1 hp
  obtain ⟨l, hl⟩ := hc.isDir_chain (hc.isDir_of_parentIn hg hparent)
  rw [hl.clustersOf_eq hg] at hslot
  cases l with
  | nil => exact absurd rfl hl.ne_nil
  | cons c cs =>
    obtain rfl : c = p.parent := hl.leads.1
    rw [freeSlotInClusters] at hslot
    cases hfirst : freeSlotIn ((viewOf m disk).slot p.parent) m.slots with
    | none =>
      have := find?_eq_none.1 hfirst i (mem_range.2 hi)
      exact absurd hfree this
    | some j =>
      simp only [hfirst, Option.some.injEq] at hslot
      rw [← hslot]
      exact find?_some (p := fun i => isFreeSlot ((viewOf m disk).slot p.parent i)) hfirst

/-- For an entry planted on the disk, the property holds exactly when the slot was free and the
name does not mark it as free again. -/
theorem entryAdded_planted_iff (hg : Geometry m) {disk disk' : Buf}
    (hc : Consistent m (viewOf m disk)) {p : EntryPlan} (hp : slotPlan m disk path = some p)
    {attr : UInt8} (hplanted : Planted m disk disk' p attr) :
    EntryAdded m (viewOf m disk) (viewOf m disk') p.parent ↔
      isFreeSlot ((viewOf m disk).slot p.parent p.index) = true ∧ isFreeSlot p.name = false := by
  obtain ⟨hdir, hparent, hindex, hcluster, hfree⟩ := hc.slotPlan_spec hg hp
  obtain ⟨l, hl⟩ := hc.isDir_chain hdir
  have hl' : Chain m (viewOf m disk') p.parent l :=
    hl.congr (fun c hcl => hplanted.chain_next hfree hl hcl)
  have hmem : ∀ {k}, k ∈ l → DirCluster m (viewOf m disk) k := fun hk => ⟨_, l, hdir, hl, hk⟩
  constructor
  · rintro ⟨hkept, ⟨k, i⟩, ⟨⟨r, hr, hkr⟩, hi, hwas, his⟩, -⟩
    have hself : (k, i) = (p.parent, p.index) := by
      by_contra hne
      rw [hr.unique hg.max_lt hl'] at hkr
      rw [hplanted.slot_eq (hmem hkr) hi hne, hwas] at his
      cases his
    cases hself
    rw [hplanted.slot_self, isFreeSlot_newEntry] at his
    exact ⟨hwas, his⟩
  · rintro ⟨hslot, hname⟩
    refine ⟨?_, (p.parent, p.index), ⟨⟨l, hl', hl.head_mem⟩, hindex, hslot, ?_⟩, ?_⟩
    · intro k i huse
      refine hplanted.slot_eq huse.dir huse.lt (fun he => ?_)
      cases he
      rw [huse.not_free] at hslot
      cases hslot
    · rw [hplanted.slot_self, isFreeSlot_newEntry]
      exact hname
    · rintro ⟨k, i⟩ ⟨⟨r, hr, hkr⟩, hi, hwas, his⟩
      by_contra hne
      rw [hr.unique hg.max_lt hl'] at hkr
      rw [hplanted.slot_eq (hmem hkr) hi hne, hwas] at his
      cases his

theorem not_entryAdded_self (v : View) (parent : ℕ) : ¬ EntryAdded m v v parent := by
  rintro ⟨-, loc, ⟨-, -, hwas, his⟩, -⟩
  rw [hwas] at his
  cases his

/-- A successful call keeps all entries and adds one exactly when the device has a write function,
the first cluster of the directory has a free slot, and the new short name is not one that marks a
free slot (its first byte is not 0xE5). -/
theorem entryAdded_iff (bpb : BootSector) (hacc : bpb.accepted = true) (hsize : bpb.belowFourGiB)
    (m : Mount) (hm : m = Mount.ofBootSector bpb) (writable : Bool) (env : Env Buf) (w : World Buf)
    (hc : Consistent m (viewOf m w.dev)) (op : Fs Buf → List UInt8 → Io Buf Bool)
    (hop : op = createFile ∨ op = mkdir) (path : List UInt8)
    (hs : (op (diskFs writable env m) path w).1 = true) (parent : ℕ)
    (hparent : parentIn m (viewOf m w.dev) path = some parent) :
    EntryAdded m (viewOf m w.dev) (viewOf m (op (diskFs writable env m) path w).2.dev) parent ↔
      writable = true ∧ (∃ i < m.slots, isFreeSlot ((viewOf m w.dev).slot parent i) = true) ∧
        ∀ name, make83Name path = some name → isFreeSlot name = false := by
  subst hm
  have hg := geometry_ofBootSector hacc hsize
  obtain ⟨p, disk', attr, hp, hplanted, hdev⟩ : ∃ p disk' attr,
      slotPlan (Mount.ofBootSector bpb) w.dev path = some p ∧
      Planted (Mount.ofBootSector bpb) w.dev disk' p attr ∧
      (op (diskFs writable env (Mount.ofBootSector bpb)) path w).2.dev =
        if writable then disk' else w.dev := by
    rcases hop with rfl | rfl
    · obtain ⟨p, n, hp, hw⟩ := createFile_of_success hg hc hs
      exact ⟨p, _, 0x20, hp, planted_createdDisk hg hc hp, by rw [hw]; rfl⟩
    · obtain ⟨p, n, hp, hw⟩ := mkdir_of_success hg hc hs
      exact ⟨p, _, 0x10, hp, planted_mkdirDisk hg hc hp, by rw [hw]; rfl⟩
  obtain ⟨hname, hparent', -, -⟩ := slotPlan_eq_some.1 hp
  obtain rfl : p.parent = parent := Option.some.inj (hparent'.symm.trans hparent)
  obtain ⟨-, -, hindex, -, -⟩ := hc.slotPlan_spec hg hp
  rw [hdev]
  cases writable with
  | false => simpa using not_entryAdded_self _ _
  | true =>
    rw [if_pos rfl, entryAdded_planted_iff hg hc hp hplanted]
    constructor
    · rintro ⟨hfree, hhead⟩
      refine ⟨rfl, ⟨p.index, hindex, hfree⟩, fun name hn => ?_⟩
      rw [hname] at hn
      exact Option.some.inj hn ▸ hhead
    · rintro ⟨-, ⟨i, hi, hfree⟩, hhead⟩
      exact ⟨isFreeSlot_of_slotPlan hg hc hp hi hfree, hhead p.name hname⟩

/-- The first file on the small volume. -/
theorem entryAdded_small :
    EntryAdded smallMount (viewOf smallMount (bootWorld (emptyVolume smallMount)).dev)
      (viewOf smallMount (createFile (diskFs true plainEnv smallMount) [0x41]
        (bootWorld (emptyVolume smallMount))).2.dev) 2 := by
  refine (entryAdded_iff smallBootSector smallBootSector_accepted smallBootSector_belowFourGiB
    smallMount rfl true plainEnv (bootWorld (emptyVolume smallMount)) consistent_small createFile
    (.inl rfl) [0x41] (by decide +kernel) 2 rfl).2 ⟨rfl, ⟨0, by decide, by decide +kernel⟩, ?_⟩
  intro name hname
  have hhead : (make83Name [0x41]).map isFreeSlot = some false := by decide
  rw [hname] at hhead
  exact Option.some.inj hhead

/-- A root directory of two clusters, the first one full of files `A` to `P` with a cluster each. -/
def crowdedRoot : View where
  next c := if c = 2 then 3 else if c < 20 then 0x0FFFFFFF else 0
  slot c i :=
    if c = 2 then newEntry (fun j => if j = 0 then UInt8.ofNat (0x41 + i) else 0x20) 0x20 (4 + i)
    else fun _ => 0

theorem next_crowded {c : ℕ} (hc : c < 128) :
    (viewOf smallMount (diskOf smallMount crowdedRoot)).next c = crowdedRoot.next c := by
  apply nextOf_diskOf smallMount_geometry hc
  simp only [crowdedRoot]
  split_ifs <;> norm_num

theorem slot_crowded {c i : ℕ} (hc : 2 ≤ c) (hi : i < smallMount.slots) :
    (viewOf smallMount (diskOf smallMount crowdedRoot)).slot c i = crowdedRoot.slot c i := by
  refine slot_diskOf hc hi (fun j hj => ?_)
  simp only [crowdedRoot]
  split_ifs
  · exact newEntry_zero hj
  · rfl

theorem chain_crowded :
    Chain smallMount (viewOf smallMount (diskOf smallMount crowdedRoot)) 2 [2, 3] := by
  have h2 := next_crowded (c := 2) (by norm_num)
  have h3 := next_crowded (c := 3) (by norm_num)
  refine ⟨⟨rfl, by constructor <;> decide, ?_⟩, cons_ne_nil _ _⟩
  refine ⟨rfl, by constructor <;> decide, ?_⟩
  change 0x0FFFFFF8 ≤ (viewOf smallMount (diskOf smallMount crowdedRoot)).next 3
  decide

theorem crowded_usable {k i : ℕ} (hk : k ∈ [2, 3]) (hi : i < smallMount.slots)
    (husable : entryIsUsable ((viewOf smallMount (diskOf smallMount crowdedRoot)).slot k i) =
      true) :
    k = 2 ∧ ∃ name, (viewOf smallMount (diskOf smallMount crowdedRoot)).slot k i =
      newEntry name 0x20 (4 + i) := by
  rcases mem_cons.1 hk with rfl | hk
  · exact ⟨rfl, _, slot_crowded le_rfl hi⟩
  · obtain rfl := mem_singleton.1 hk
    have hzero : crowdedRoot.slot 3 i = fun _ => 0 := rfl
    rw [slot_crowded (by norm_num) hi, hzero] at husable
    exact absurd husable (by decide)

theorem crowded_isDir {h : ℕ} (hdir : IsDir smallMount
    (viewOf smallMount (diskOf smallMount crowdedRoot)) h) : h = 2 := by
  induction hdir with
  | root => rfl
  | sub hdir hl hk hi he hdot ih =>
    rw [ih] at hl
    rw [hl.unique smallMount_geometry.max_lt chain_crowded] at hk
    obtain ⟨-, name, hslot⟩ := crowded_usable hk hi (entryIsUsable_of_isDir he)
    rw [hslot, entryIsDir, entryAttr_newEntry] at he
    simp at he

theorem crowded_live {k i : ℕ} (hlive : Live smallMount
    (viewOf smallMount (diskOf smallMount crowdedRoot)) k i) :
    k = 2 ∧ Chain smallMount (viewOf smallMount (diskOf smallMount crowdedRoot))
      (entryCluster ((viewOf smallMount (diskOf smallMount crowdedRoot)).slot k i)) [4 + i] := by
  obtain ⟨⟨h, l, hdir, hl, hk⟩, hi, husable, -⟩ := hlive
  rw [crowded_isDir hdir] at hl
  rw [hl.unique smallMount_geometry.max_lt chain_crowded] at hk
  obtain ⟨rfl, name, hslot⟩ := crowded_usable hk hi husable
  have hi' : i < 16 := hi
  rw [hslot, entryCluster_newEntry (by omega)]
  refine ⟨rfl, chain_singleton ⟨by omega, show 4 + i < 128 by omega⟩ ?_⟩
  rw [next_crowded (by omega)]
  simp only [crowdedRoot]
  rw [if_neg (by omega), if_pos (by omega)]

theorem consistent_crowded : Consistent smallMount
    (viewOf smallMount (bootWorld (diskOf smallMount crowdedRoot)).dev) := by
  rw [bootWorld_dev]
  have hmax := smallMount_geometry.max_lt
  refine ⟨⟨_, chain_crowded⟩, fun hlive => ⟨_, (crowded_live hlive).2⟩, ?_, ?_⟩
  · intro k i l r hlive hl hr c hcl hcr
    rw [hl.unique hmax (crowded_live hlive).2, mem_singleton] at hcl
    rw [hr.unique hmax chain_crowded] at hcr
    simp only [mem_cons, not_mem_nil, or_false] at hcr
    omega
  · intro k i k' i' l l' hlive hlive' hne hl hl' c hcl hcl'
    rw [hl.unique hmax (crowded_live hlive).2, mem_singleton] at hcl
    rw [hl'.unique hmax (crowded_live hlive').2, mem_singleton] at hcl'
    refine hne (Prod.ext ?_ ?_)
    · rw [(crowded_live hlive).1, (crowded_live hlive').1]
    · change i = i'
      omega

/-- Creating a seventeenth file succeeds and puts its entry over that of the first one. -/
theorem create_overwrites_entry :
    Consistent smallMount (viewOf smallMount (bootWorld (diskOf smallMount crowdedRoot)).dev) ∧
      (createFile (diskFs true plainEnv smallMount) [0x51]
        (bootWorld (diskOf smallMount crowdedRoot))).1 = true ∧
      parentIn smallMount (viewOf smallMount (bootWorld (diskOf smallMount crowdedRoot)).dev)
        [0x51] = some 2 ∧
      ¬ EntryAdded smallMount (viewOf smallMount (bootWorld (diskOf smallMount crowdedRoot)).dev)
        (viewOf smallMount (createFile (diskFs true plainEnv smallMount) [0x51]
          (bootWorld (diskOf smallMount crowdedRoot))).2.dev) 2 := by
  refine ⟨consistent_crowded, by decide +kernel, rfl, fun hadded => ?_⟩
  have huse : InUse smallMount
      (viewOf smallMount (bootWorld (diskOf smallMount crowdedRoot)).dev) 2 0 := by
    rw [bootWorld_dev]
    exact ⟨⟨2, _, .root, chain_crowded, mem_cons_self⟩, by decide, by decide +kernel⟩
  have hbyte := congrFun (hadded.kept huse) 0
  exact absurd hbyte (by decide)

end MicroK.Fat32
