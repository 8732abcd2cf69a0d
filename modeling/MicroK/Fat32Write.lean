import MicroK.Fat32Entries

/-!
# Writing to the chain of a file

The loop of `fat32_write` fills the clusters of a chain one by one and links a free cluster at
the end of the chain when the data does not fit. `Written` says what it leaves behind: the old
chain followed by clusters that were free, the data in order in its clusters, and everything
outside of the chain as it was.
-/

namespace MicroK.Fat32

open List

variable {m : Mount} {disk : Buf}

section

variable {name : Buf} {attr : UInt8} {cluster : ℕ}

theorem newEntry_zero {j : ℕ} (hj : 32 ≤ j) : newEntry name attr cluster j = 0 := by
  unfold newEntry
  rw [if_neg (by omega), if_neg (by omega), if_neg (by omega), if_neg (by omega),
    if_neg (by omega), if_neg (by omega)]

theorem entryAttr_newEntry : entryAttr (newEntry name attr cluster) = attr.toNat := rfl

theorem entryCluster_newEntry (hc : cluster < 2 ^ 32) :
    entryCluster (newEntry name attr cluster) = cluster := by
  have h20 : newEntry name attr cluster 20 = UInt8.ofNat (cluster / 65536) := rfl
  have h21 : newEntry name attr cluster (20 + 1) = UInt8.ofNat (cluster / 65536 / 256) := rfl
  have h26 : newEntry name attr cluster 26 = UInt8.ofNat cluster := rfl
  have h27 : newEntry name attr cluster (26 + 1) = UInt8.ofNat (cluster / 256) := rfl
  simp only [entryCluster, le16, h20, h21, h26, h27, UInt8.toNat_ofNat']
  omega

theorem entryIsLfn_newEntry (hattr : attr.toNat &&& 0x0F ≠ 0x0F) :
    entryIsLfn (newEntry name attr cluster) = false := by
  simpa [entryIsLfn, entryAttr_newEntry] using hattr

theorem sameName_newEntry : sameName (newEntry name attr cluster) name = true := by
  refine all_eq_true.2 (fun j hj => ?_)
  have hlt : j < 11 := mem_range.1 hj
  simp [newEntry, hlt]

end

variable {v : View} {c : ℕ} {path : List UInt8}

theorem DirCluster.inRange {k : ℕ} (hk : DirCluster m v k) : InRange m k := by
  obtain ⟨h, l, -, hl, hmem⟩ := hk
  exact hl.inRange hmem

theorem DirCluster.next_ne_zero {k : ℕ} (hk : DirCluster m v k) : v.next k ≠ 0 := by
  obtain ⟨h, l, -, hl, hmem⟩ := hk
  exact hl.next_ne_zero hmem

theorem Chain.not_mem_of_free {h : ℕ} {l : List ℕ} (hl : Chain m v h l) (hc : v.next c = 0) :
    c ∉ l := fun hmem => hl.next_ne_zero hmem hc

theorem chain_singleton (hc : InRange m c) (hnext : v.next c = 0x0FFFFFFF) : Chain m v c [c] := by
  refine ⟨⟨rfl, hc, ?_⟩, cons_ne_nil c []⟩
  change 0x0FFFFFF8 ≤ v.next c
  rw [hnext]
  norm_num

structure Planted (m : Mount) (disk disk' : Buf) (p : EntryPlan) (attr : UInt8) : Prop where
  next_eq : ∀ d < m.maxClusters,
    nextOf m disk' d = if d = p.cluster then 0x0FFFFFFF else nextOf m disk d
  slot_eq : ∀ {k i}, DirCluster m (viewOf m disk) k → i < m.slots → (k, i) ≠ (p.parent, p.index) →
    (viewOf m disk').slot k i = (viewOf m disk).slot k i
  slot_self : (viewOf m disk').slot p.parent p.index = newEntry p.name attr p.cluster

section

variable {disk' : Buf} {p : EntryPlan} {attr : UInt8}

theorem Planted.chain_next (hp : Planted m disk disk' p attr) (hfree : nextOf m disk p.cluster = 0)
    {h : ℕ} {l : List ℕ} (hl : Chain m (viewOf m disk) h l) (hcl : c ∈ l) :
    nextOf m disk' c = nextOf m disk c := by
  have hne : c ≠ p.cluster := fun he => hl.not_mem_of_free hfree (he ▸ hcl)
  rw [hp.next_eq c (hl.inRange hcl).2, if_neg hne]

theorem Planted.update (hp : Planted m disk disk' p attr) (hg : Geometry m)
    (hcluster : InRange m p.cluster) (hfree : nextOf m disk p.cluster = 0)
    (hattr : attr.toNat &&& 0x0F ≠ 0x0F)
    (hempty : attr.toNat &&& 0x10 ≠ 0 → ∀ i < m.slots,
      entryIsUsable ((viewOf m disk').slot p.cluster i) = true →
        isDot (viewOf m disk') p.cluster i = true) :
    Update m (viewOf m disk) (viewOf m disk') p.parent p.index := by
  have hmax := hg.max_lt
  have hhead : entryCluster (newEntry p.name attr p.cluster) = p.cluster :=
    entryCluster_newEntry (by have := hcluster.2; omega)
  refine ⟨hp.slot_eq, ?_, fun hl hcl => hp.chain_next hfree hl hcl,
    fun _ _ hl hcl => hp.chain_next hfree hl hcl, fun _ => ?_⟩
  · rw [hp.slot_self]
    exact entryIsLfn_newEntry hattr
  · rw [hp.slot_self, hhead]
    refine ⟨[p.cluster], chain_singleton hcluster ?_, ?_, ?_, ?_⟩
    · exact (hp.next_eq p.cluster hcluster.2).trans (if_pos rfl)
    · intro r hr c hmem
      rw [mem_singleton.1 hmem]
      exact hr.not_mem_of_free hfree
    · intro k i r _ _ hr c hmem
      rw [mem_singleton.1 hmem]
      exact hr.not_mem_of_free hfree
    · intro hdir k hk i hi husable
      rw [mem_singleton.1 hk] at husable ⊢
      refine hempty ?_ i hi husable
      simpa [entryAttr_newEntry] using (Bool.and_eq_true_iff.1 hdir).2

end

variable (hg : Geometry m)
include hg

theorem planted_createdDisk (hc : Consistent m (viewOf m disk)) {p : EntryPlan}
    (hp : slotPlan m disk path = some p) : Planted m disk (createdDisk m disk p) p 0x20 := by
  obtain ⟨-, hparent, hindex, hcluster, -⟩ := hc.slotPlan_spec hg hp
  refine ⟨?_, ?_, slot_slotSet_self (fun j hj => newEntry_zero hj)⟩
  · intro d hd
    rw [createdDisk, nextOf_slotSet hg hd, nextOf_tableSet]
    rfl
  · intro k i hk hi hne
    rw [createdDisk, slot_slotSet_of_ne hparent.1 hk.inRange.1 hindex hi hne,
      slot_tableSet hg hcluster.2 hi]

theorem consistent_createdDisk (hc : Consistent m (viewOf m disk)) {p : EntryPlan}
    (hp : slotPlan m disk path = some p) : Consistent m (viewOf m (createdDisk m disk p)) := by
  obtain ⟨-, -, -, hcluster, hfree⟩ := hc.slotPlan_spec hg hp
  have hslots := hg.slots_pos
  exact hc.update hg.max_lt (by omega) ((planted_createdDisk hg hc hp).update hg hcluster hfree
    (by decide) (fun hdir => absurd rfl hdir))

omit hg in
theorem entryOf_newDirCluster (self parent i : ℕ) :
    entryOf (newDirCluster self parent) i =
      if i = 0 then newEntry dotName 0x10 self
      else if i = 1 then newEntry dotDotName 0x10 parent
      else fun _ => 0 := by
  funext j
  unfold entryOf newDirCluster
  by_cases hj : j < 32
  · rw [if_pos hj]
    split_ifs <;> first | rfl | omega | (congr 1; omega)
  · rw [if_neg hj]
    split_ifs
    · exact (newEntry_zero (by omega)).symm
    · exact (newEntry_zero (by omega)).symm
    · rfl

omit hg in
theorem isDot_of_newDirCluster {v : View} {c self parent i : ℕ} {slots : ℕ} (hslots : 2 ≤ slots)
    (hv : ∀ j < slots, v.slot c j = entryOf (newDirCluster self parent) j) (hi : i < slots)
    (husable : entryIsUsable (v.slot c i) = true) : isDot v c i = true := by
  have h0 := (hv 0 (by omega)).trans (entryOf_newDirCluster self parent 0)
  have h1 := (hv 1 (by omega)).trans (entryOf_newDirCluster self parent 1)
  rw [if_pos rfl] at h0
  rw [if_neg (by decide), if_pos rfl] at h1
  rw [hv i hi, entryOf_newDirCluster] at husable
  have hlfn : entryIsLfn (newEntry dotName 0x10 self) = false := entryIsLfn_newEntry (by decide)
  simp only [isDot, h0, h1, sameName_newEntry, hlfn]
  split_ifs at husable with hz hone
  · simp [hz]
  · simp [hone]
  · exact absurd husable (by decide)

theorem planted_mkdirDisk (hc : Consistent m (viewOf m disk)) {p : EntryPlan}
    (hp : slotPlan m disk path = some p) : Planted m disk (mkdirDisk m disk p) p 0x10 := by
  obtain ⟨-, hparent, hindex, hcluster, hfree⟩ := hc.slotPlan_spec hg hp
  refine ⟨?_, ?_, slot_slotSet_self (fun j hj => newEntry_zero hj)⟩
  · intro d hd
    rw [mkdirDisk, nextOf_slotSet hg hd, nextOf_clusterSet hg hd, nextOf_tableSet]
    rfl
  · intro k i hk hi hloc
    have hne : k ≠ p.cluster := fun he => hk.next_ne_zero (he ▸ hfree)
    rw [mkdirDisk, slot_slotSet_of_ne hparent.1 hk.inRange.1 hindex hi hloc,
      slot_clusterSet_of_ne hcluster.1 hk.inRange.1 hne _ hi, slot_tableSet hg hcluster.2 hi]

theorem consistent_mkdirDisk (hc : Consistent m (viewOf m disk)) {p : EntryPlan}
    (hp : slotPlan m disk path = some p) : Consistent m (viewOf m (mkdirDisk m disk p)) := by
  obtain ⟨hdir, hparent, hindex, hcluster, hfree⟩ := hc.slotPlan_spec hg hp
  have hslots := hg.slots_pos
  obtain ⟨l, hl⟩ := hc.isDir_chain hdir
  have hpne : p.cluster ≠ p.parent := fun he => hl.next_ne_zero hl.head_mem (he ▸ hfree)
  have hnew : ∀ i < m.slots, (viewOf m (mkdirDisk m disk p)).slot p.cluster i =
      entryOf (newDirCluster p.cluster p.parent) i := by
    intro i hi
    rw [mkdirDisk, slot_slotSet_of_ne hparent.1 hcluster.1 hindex hi
      (fun he => hpne (Prod.mk.inj he).1), slot_clusterSet_self _ hi]
  exact hc.update hg.max_lt (by omega) ((planted_mkdirDisk hg hc hp).update hg hcluster hfree
    (by decide) (fun _ i hi husable => isDot_of_newDirCluster hslots hnew hi husable))

omit hg in
theorem entryIsLfn_of_usable {e : Buf} (h : entryIsUsable e = true) : entryIsLfn e = false := by
  unfold entryIsUsable at h
  split_ifs at h with h0 h1 h2 h3
  simpa using h2

omit hg in
theorem slot_zero {c i j : ℕ} (hj : 32 ≤ j) : (viewOf m disk).slot c i j = 0 :=
  if_neg (by omega)

theorem update_deletedDisk (hc : Consistent m (viewOf m disk)) {f : Found}
    (hf : resolvePathIn m (viewOf m disk) path = some f) :
    Update m (viewOf m disk) (viewOf m (deletedDisk m disk f)) f.cluster f.index := by
  obtain ⟨hlive, he⟩ := hc.live_of_resolvePathIn hg hf
  obtain ⟨l, hl⟩ := hc.entry_chain hlive
  have hk := hlive.dir.inRange
  have hself : (viewOf m (deletedDisk m disk f)).slot f.cluster f.index =
      Function.update f.entry 0 0xE5 := by
    refine slot_slotSet_self (fun j hj => ?_)
    rw [Function.update_of_ne (by omega), he]
    exact slot_zero hj
  have hdead : entryIsUsable (Function.update f.entry 0 0xE5) = false := by
    simp [entryIsUsable]
  have hnext : ∀ d < m.maxClusters, d ∉ l →
    nextOf m (deletedDisk m disk f) d = nextOf m disk d := by
    intro d hd hmem
    rw [deletedDisk, nextOf_slotSet hg hd, he, hl.clustersOf_eq hg, nextOf_tableClear, if_neg hmem]
  refine ⟨?_, ?_, ?_, ?_, ?_⟩
  · intro k i hkd hi hne
    rw [deletedDisk, slot_slotSet_of_ne hk.1 hkd.inRange.1 hlive.lt hi hne, he, hl.clustersOf_eq hg,
      slot_tableClear hg (fun c hc => (hl.inRange hc).2) disk hi]
  · rw [hself]
    have hattr : entryAttr (Function.update f.entry 0 0xE5) = entryAttr f.entry := by
      simp [entryAttr]
    have hlfn := entryIsLfn_of_usable hlive.usable
    rw [← he] at hlfn
    rwa [entryIsLfn, hattr]
  · intro r c hr hmem
    exact hnext c (hr.inRange hmem).2 (fun hcl => hc.root_disjoint hlive hl hr c hcl hmem)
  · intro k i r c hlive' hne hr hmem
    exact hnext c (hr.inRange hmem).2 (hc.disjoint hlive' hlive hne hr hl c hmem)
  · intro husable
    rw [hself, hdead] at husable
    cases husable

theorem consistent_deletedDisk (hc : Consistent m (viewOf m disk)) {f : Found}
    (hf : resolvePathIn m (viewOf m disk) path = some f) :
    Consistent m (viewOf m (deletedDisk m disk f)) := by
  have hslots := hg.slots_pos
  exact hc.update hg.max_lt (by omega) (update_deletedDisk hg hc hf)

end MicroK.Fat32

namespace MicroK.Fat32

open SuccessorChain List

structure Written (m : Mount) (data disk disk' : Buf) (c : ℕ) (rest rest' : List ℕ) (k k' : ℕ) :
    Prop where
  leads : Leads (viewOf m disk').next (InRange m) EndOfChain c rest'
  grown : ∃ fresh, rest' = rest ++ fresh ∧ ∀ x ∈ fresh, nextOf m disk x = 0
  next_eq : ∀ e < m.maxClusters, e ∉ rest' → nextOf m disk' e = nextOf m disk e
  bytes_eq : ∀ e, InRange m e → e ∉ rest' → ∀ r < m.clusterSize,
    disk' (m.clusterPos e + r) = disk (m.clusterPos e + r)
  le : k ≤ k'
  content : ∀ q r, r < m.clusterSize → q * m.clusterSize + r < k' - k →
    ∃ e, rest'[q]? = some e ∧ disk' (m.clusterPos e + r) = data (k + q * m.clusterSize + r)

variable {m : Mount} {data disk disk' disk₁ : Buf} {c d : ℕ} {rest rest' : List ℕ} {k k' chunk : ℕ}

theorem Written.refl (hl : Leads (viewOf m disk).next (InRange m) EndOfChain c rest) (k : ℕ) :
    Written m data disk disk c rest rest k k where
  leads := hl
  grown := ⟨[], (append_nil rest).symm, nofun⟩
  next_eq _ _ _ := rfl
  bytes_eq _ _ _ _ _ := rfl
  le := le_rfl
  content q r _ hlt := by omega

def fillCluster (m : Mount) (disk : Buf) (c k chunk : ℕ) (data : Buf) : Buf :=
  disk.copyAt (m.clusterPos c) chunk (data.from k)

theorem nextOf_fillCluster (hg : Geometry m) {e : ℕ} (he : e < m.maxClusters) :
    nextOf m (fillCluster m disk c k chunk data) e = nextOf m disk e := by
  have hle := hg.table_le_cluster (d := c) he
  exact nextOf_congr (fun j _ hj => Buf.copyAt_of_not_mem (by omega))

theorem firstFree_congr (h : ∀ e < m.maxClusters, nextOf m disk' e = nextOf m disk e) :
    firstFree m disk' = firstFree m disk := by
  refine find?_congr (fun e he => ?_)
  rw [isFreeCluster, isFreeCluster, h e (mem_range.1 he)]

theorem fillCluster_of_ne (hc : InRange m c) {e r : ℕ} (he : InRange m e) (hne : e ≠ c)
    (hr : r < m.clusterSize) (hchunk : chunk ≤ m.clusterSize) :
    fillCluster m disk c k chunk data (m.clusterPos e + r) = disk (m.clusterPos e + r) := by
  have hdisj := clusterPos_disjoint (m := m) he.1 hc.1 hne
  exact Buf.copyAt_of_not_mem (by omega)

theorem Written.cons (hc : InRange m c) (hchunk : chunk ≤ m.clusterSize)
    (hfull : chunk = m.clusterSize ∨ k' = k + chunk)
    (hnext : nextOf m disk₁ c = d)
    (hfill : ∀ e, InRange m e → ∀ r < m.clusterSize, disk₁ (m.clusterPos e + r) =
      fillCluster m disk c k chunk data (m.clusterPos e + r))
    (htable : ∀ e < m.maxClusters, e ≠ c → e ∉ rest' → nextOf m disk₁ e = nextOf m disk e)
    (hw : Written m data disk₁ disk' d rest rest' (k + chunk) k') (hnot : c ∉ rest')
    {old : List ℕ} (hgrown : ∃ fresh, c :: rest' = old ++ fresh ∧
      ∀ x ∈ fresh, nextOf m disk x = 0) :
    Written m data disk disk' c old (c :: rest') k k' where
  leads := by
    refine ⟨rfl, hc, ?_⟩
    have hstep : nextOf m disk' c = d := (hw.next_eq c hc.2 hnot).trans hnext
    change Leads _ _ _ (nextOf m disk' c) rest'
    rw [hstep]
    exact hw.leads
  grown := hgrown
  next_eq e he hmem := by
    obtain ⟨hec, her⟩ := ne_and_not_mem_of_not_mem_cons hmem
    rw [hw.next_eq e he her, htable e he hec her]
  bytes_eq e he hmem r hr := by
    obtain ⟨hec, her⟩ := ne_and_not_mem_of_not_mem_cons hmem
    rw [hw.bytes_eq e he her r hr, hfill e he r hr, fillCluster_of_ne hc he hec hr hchunk]
  le := (Nat.le_add_right k chunk).trans hw.le
  content q r hr hlt := by
    cases q with
    | zero =>
      refine ⟨c, rfl, ?_⟩
      rw [hw.bytes_eq c hc hnot r hr, hfill c hc r hr, fillCluster,
        Buf.copyAt_of_mem (Nat.le_add_right _ _) (by omega), Buf.from]
      congr 1
      omega
    | succ q =>
      rw [Nat.succ_mul] at hlt ⊢
      obtain ⟨e, he, hbyte⟩ := hw.content q r hr (by omega)
      refine ⟨e, he, hbyte.trans ?_⟩
      congr 1
      omega

section

variable {env : Env Buf} {size fuel : ℕ} {temp : Buf} {w : World Buf}

theorem not_mem_of_grown (hmax : m.maxClusters < 2 ^ 25) (tail fresh : List ℕ) {disk : Buf}
    (hl : Leads (viewOf m disk).next (InRange m) EndOfChain c (c :: tail))
    (hfresh : ∀ x ∈ fresh, nextOf m disk x = 0) : c ∉ tail ++ fresh := by
  have hchain : Chain m (viewOf m disk) c (c :: tail) := ⟨hl, cons_ne_nil c tail⟩
  intro hmem
  rcases mem_append.1 hmem with hmem | hmem
  · exact (nodup_cons.1 (hchain.nodup hmax)).1 hmem
  · exact hchain.next_ne_zero mem_cons_self (hfresh c hmem)

def linkCluster (m : Mount) (disk : Buf) (c f : ℕ) : Buf :=
  tableSet m (tableSet m disk c f) f 0x0FFFFFFF

variable {f : ℕ}

variable (hg : Geometry m)
include hg

theorem nextOf_linkCluster (hf : f < m.maxClusters) (e : ℕ) : nextOf m (linkCluster m disk c f) e =
      if e = f then 0x0FFFFFFF else if e = c then f else nextOf m disk e := by
  have hmax := hg.max_lt
  have hmask : f &&& 0x0FFFFFFF = f := by
    rw [show 0x0FFFFFFF = 2 ^ 28 - 1 from rfl, Nat.and_two_pow_sub_one_eq_mod]
    exact Nat.mod_eq_of_lt (by omega)
  rw [linkCluster, nextOf_tableSet, nextOf_tableSet, hmask, Nat.and_self]

theorem linkCluster_cluster (hc : c < m.maxClusters) (hf : f < m.maxClusters) (e r : ℕ) :
    linkCluster m disk c f (m.clusterPos e + r) = disk (m.clusterPos e + r) := by
  have hlec := hg.table_le_cluster (d := e) hc
  have hlef := hg.table_le_cluster (d := e) hf
  rw [linkCluster, tableSet_of_not_mem (by omega), tableSet_of_not_mem (by omega)]

theorem Written.next (hchunk : chunk ≤ m.clusterSize)
    (hfull : chunk = m.clusterSize ∨ k' = k + chunk) {tail tail' : List ℕ}
    (hl : Leads (viewOf m disk).next (InRange m) EndOfChain c (c :: tail))
    (hw : Written m data (fillCluster m disk c k chunk data) disk' (nextOf m disk c) tail tail'
      (k + chunk) k') : Written m data disk disk' c (c :: tail) (c :: tail') k k' := by
  have hc : InRange m c := hl.2.1
  have hnext : ∀ e < m.maxClusters,
      nextOf m (fillCluster m disk c k chunk data) e = nextOf m disk e :=
    fun e he => nextOf_fillCluster hg he
  obtain ⟨fresh, rfl, hfresh⟩ := hw.grown
  have hfresh' : ∀ x ∈ fresh, nextOf m disk x = 0 := by
    intro x hx
    have hin := hw.leads.ok_of_mem (mem_append_right tail hx)
    rw [← hnext x hin.2, hfresh x hx]
  exact Written.cons hc hchunk hfull (hnext c hc.2) (fun _ _ _ _ => rfl)
    (fun e he _ _ => hnext e he)
    hw (not_mem_of_grown hg.max_lt tail fresh hl hfresh') ⟨fresh, rfl, hfresh'⟩

theorem Written.link (hchunk : chunk = m.clusterSize) {tail' : List ℕ}
    (hl : Leads (viewOf m disk).next (InRange m) EndOfChain c [c]) (hf : InRange m f)
    (hfree : nextOf m disk f = 0)
    (hw : Written m data (linkCluster m (fillCluster m disk c k chunk data) c f) disk' f [f] tail'
      (k + chunk) k') : Written m data disk disk' c [c] (c :: tail') k k' := by
  have hc : InRange m c := hl.2.1
  have hcf : c ≠ f := by
    rintro rfl
    exact not_mem_of_grown hg.max_lt [] [c] hl (by simpa using hfree) mem_cons_self
  have hnext : ∀ e < m.maxClusters,
      nextOf m (linkCluster m (fillCluster m disk c k chunk data) c f) e =
        if e = f then 0x0FFFFFFF else if e = c then f else nextOf m disk e := by
    intro e he
    rw [nextOf_linkCluster hg hf.2, nextOf_fillCluster hg he]
  have hnextc := hnext c hc.2
  rw [if_neg hcf, if_pos rfl] at hnextc
  obtain ⟨fresh, rfl, hfresh⟩ := hw.grown
  have hfresh' : ∀ x ∈ f :: fresh, nextOf m disk x = 0 := by
    intro x hx
    rcases mem_cons.1 hx with rfl | hx
    · exact hfree
    · have hin := hw.leads.ok_of_mem (mem_append_right [f] hx)
      have hx0 := (hnext x hin.2).symm.trans (hfresh x hx)
      have hf2 := hf.1
      split_ifs at hx0 with hxf hxc
      · omega
      · exact hx0
  refine Written.cons hc hchunk.le (.inl hchunk) hnextc ?_ ?_ hw
    (not_mem_of_grown hg.max_lt [] (f :: fresh) hl hfresh') ⟨f :: fresh, rfl, hfresh'⟩
  · intro e _ r _
    exact linkCluster_cluster hg hc.2 hf.2 e r
  · intro e he hec hmem
    have hef : e ≠ f := fun h => hmem (h ▸ mem_cons_self)
    rw [hnext e he, if_neg hef, if_neg hec]

theorem leads_linkCluster (hf : InRange m f) :
    Leads (viewOf m (linkCluster m disk c f)).next (InRange m) EndOfChain f [f] := by
  refine (chain_singleton hf ?_).leads
  change nextOf m (linkCluster m disk c f) f = _
  rw [nextOf_linkCluster hg hf.2, if_pos rfl]

theorem writeLoop_round (hc : InRange m c) (hk : k < size)
    (hchunk : min m.clusterSize (size - k) = chunk) :
    ∃ temp', writeLoop (diskFs true env m) size data (fuel + 1) c 0 k temp w =
      if 0x0FFFFFF8 ≤ nextOf m w.dev c ∧ k + chunk < size then
        match firstFree m w.dev with
        | none => (k + chunk, { w with dev := fillCluster m w.dev c k chunk data })
        | some f => writeLoop (diskFs true env m) size data fuel f 0 (k + chunk) temp'
            { w with dev := linkCluster m (fillCluster m w.dev c k chunk data) c f }
      else writeLoop (diskFs true env m) size data fuel (nextOf m w.dev c) 0 (k + chunk) temp'
        { w with dev := fillCluster m w.dev c k chunk data } := by
  have hoff := hg.clusterOffset_eq hc
  have hend := hg.cluster_lt hc
  have hpatch : w.dev.copyAt (m.clusterPos c) m.clusterSize
      ((temp.copyAt 0 m.clusterSize (w.dev.from (m.clusterPos c))).copyAt 0 chunk (data.from k)) =
        fillCluster m w.dev c k chunk data := by
    have hle : 0 + chunk ≤ m.clusterSize := by omega
    rw [Buf.copyAt_patch _ _ _ hle, Nat.add_zero, fillCluster]
  have hfree : firstFree m (fillCluster m w.dev c k chunk data) = firstFree m w.dev :=
    firstFree_congr (fun e he => nextOf_fillCluster hg he)
  rw [writeLoop, if_pos ⟨hk, validCluster_of_inRange hg hc⟩]
  simp only [diskFs_dev, diskFs_mount, Io.bind_apply, hoff, Nat.sub_zero,
    vfsReadDevice_disk hend, vfsWriteDevice_disk hend, World.write_true, hchunk, hpatch,
    getNextCluster_disk hg hc.2, nextOf_fillCluster hg hc.2]
  refine ⟨(temp.copyAt 0 m.clusterSize (w.dev.from (m.clusterPos c))).copyAt 0 chunk (data.from k),
    ?_⟩
  split_ifs with hgo
  · simp only [Io.bind_apply, findFreeCluster_disk hg, hfree]
    cases hf : firstFree m w.dev with
    | none => rfl
    | some f =>
      have hlt := (firstFree_spec hf).2.1
      have hmax := hg.max_lt
      have hne : f ≠ 0xFFFFFFFF := by omega
      simp only [Option.getD_some, if_neg hne, Io.bind_apply, setCluster_disk hg hc.2,
        setCluster_disk hg hlt, World.write_true, linkCluster]
  · rfl

omit hg

theorem eq_nil_of_endOfChain (hmax : m.maxClusters < 2 ^ 25) {next : ℕ → ℕ}
    (hl : Leads next (InRange m) EndOfChain c rest) (hend : 0x0FFFFFF8 ≤ c) : rest = [] := by
  cases rest with
  | nil => rfl
  | cons d tail =>
    have hd : c < m.maxClusters := hl.1 ▸ hl.2.1.2
    omega

theorem writeLoop_disk (hg : Geometry m)
    (hl : Leads (viewOf m w.dev).next (InRange m) EndOfChain c rest) :
    ∃ disk' rest' k', writeLoop (diskFs true env m) size data fuel c 0 k temp w =
        (k', { w with dev := disk' }) ∧
      Written m data w.dev disk' c rest rest' k k' ∧ k' ≤ max k size := by
  induction fuel generalizing c rest k temp w with
  | zero => exact ⟨w.dev, rest, k, rfl, .refl hl k, le_max_left k size⟩
  | succ fuel ih =>
    by_cases hgo : k < size ∧ validCluster c = true
    · cases rest with
      | nil =>
        rw [validCluster_of_endOfChain hl] at hgo
        exact absurd hgo.2 Bool.false_ne_true
      | cons d tail =>
        obtain rfl : d = c := hl.1
        have hd : InRange m d := hl.2.1
        obtain ⟨chunk, hchunk⟩ : ∃ chunk, min m.clusterSize (size - k) = chunk := ⟨_, rfl⟩
        obtain ⟨temp', hround⟩ : ∃ temp', writeLoop (diskFs true env m) size data (fuel + 1) d 0 k
          temp w = _ := writeLoop_round hg hd hgo.1 hchunk
        rw [hround]
        have hle : chunk ≤ m.clusterSize := by omega
        have htail : Leads (viewOf m (fillCluster m w.dev d k chunk data)).next (InRange m)
            EndOfChain (nextOf m w.dev d) tail :=
          hl.2.2.congr (fun e he => nextOf_fillCluster hg (hl.2.2.ok_of_mem he).2)
        split_ifs with hend
        · obtain rfl := eq_nil_of_endOfChain hg.max_lt hl.2.2 hend.1
          cases hf : firstFree m w.dev with
          | none =>
            exact ⟨_, [d], k + chunk, rfl, .next hg hle (.inr rfl) hl (.refl htail _), by omega⟩
          | some f =>
            obtain ⟨h2, hlt, hfree⟩ := firstFree_spec hf
            obtain ⟨disk', tail', k', hrun, hw, hk'⟩ := @ih _ _ (k + chunk) temp'
              { w with dev := linkCluster m (fillCluster m w.dev d k chunk data) d f }
              (leads_linkCluster hg ⟨h2, hlt⟩)
            exact ⟨disk', d :: tail', k', hrun, .link hg (by omega) hl ⟨h2, hlt⟩ hfree hw, by omega⟩
        · obtain ⟨disk', tail', k', hrun, hw, hk'⟩ := @ih _ _ (k + chunk) temp'
            { w with dev := fillCluster m w.dev d k chunk data } htail
          exact ⟨disk', d :: tail', k', hrun,
            .next hg hle (by have := hw.le; omega) hl hw, by omega⟩
    · rw [writeLoop, if_neg hgo]
      exact ⟨w.dev, rest, k, rfl, .refl hl k, le_max_left k size⟩

end

end MicroK.Fat32
