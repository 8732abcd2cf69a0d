import MicroK.Fat32Matching
import MicroK.Fat32Rollback

/-!
# What a deletion changes

A deletion clears the table entries of the clusters of the file and then writes the directory entry
back with its first byte changed. The table and the rest of the device change in no other way
exactly when the entry lies outside the table and no cluster number beyond the table with a word
that is not clear can be reached from the file.
-/

namespace MicroK.Fat32

open Finset Nat Mount

inductive Reachable (m : Mount) (disk : Buf) (first : ℕ) : ℕ → Prop
  | start (h : validCluster first = true) : Reachable m disk first first
  | next {c : ℕ} (hc : Reachable m disk first c) (h : validCluster (linkOf m disk c) = true) :
      Reachable m disk first (linkOf m disk c)

theorem Reachable.valid {m : Mount} {disk : Buf} {first c : ℕ} (h : Reachable m disk first c) :
    validCluster c = true := by
  cases h with
  | start h => exact h
  | next _ h => exact h

theorem validCluster_bounds {c : ℕ} (h : validCluster c = true) : 2 ≤ c ∧ c < 2 ^ 28 := by
  rw [validCluster_iff] at h
  omega

theorem validCluster_zero : validCluster 0 = false := by decide

section

variable {m : Mount} {c d : ℕ}

theorem entryPos_eq_mod (hc : c < 2 ^ 28) :
    m.entryPos c = (m.fatStartLba * 512 + 4 * c) % 2 ^ 32 := by
  unfold entryPos fatSectorOffset fatEntryOffset u32
  omega

theorem entryPos_apart (hc : c < 2 ^ 28) (hd : d < 2 ^ 28) (hne : c ≠ d) :
    m.entryPos c + 4 ≤ m.entryPos d ∨ m.entryPos d + 4 ≤ m.entryPos c := by
  have h : ∀ s : ℕ, (s * 512 + 4 * c) % 2 ^ 32 + 4 ≤ (s * 512 + 4 * d) % 2 ^ 32 ∨
      (s * 512 + 4 * d) % 2 ^ 32 + 4 ≤ (s * 512 + 4 * c) % 2 ^ 32 := by
    intro s
    omega
  rw [entryPos_eq_mod hc, entryPos_eq_mod hd]
  exact h _

end

structure Clears (m : Mount) (disk disk' : Buf) (R : Set ℕ) : Prop where
  word : ∀ c ∈ R, le32 disk' (m.entryPos c) = le32 disk (m.entryPos c) &&& 0xF0000000
  rest : ∀ x, (∀ c ∈ R, x < m.entryPos c ∨ m.entryPos c + 4 ≤ x) → disk' x = disk x

section

variable {m : Mount} {disk disk' : Buf} {R : Set ℕ} {c : ℕ}

theorem Clears.word_of_not_mem (h : Clears m disk disk' R) (hR : ∀ d ∈ R, d < 2 ^ 28)
    (hc : c < 2 ^ 28) (hnot : c ∉ R) : le32 disk' (m.entryPos c) = le32 disk (m.entryPos c) := by
  refine le32_congr fun j hj => h.rest _ fun d hd => ?_
  have hne : c ≠ d := fun heq => hnot (heq ▸ hd)
  have := entryPos_apart (m := m) hc (hR d hd) hne
  omega

theorem high_low_clear (v : ℕ) : (v &&& 0xF0000000) &&& 0x0FFFFFFF = 0 := by
  rw [land_assoc]
  exact and_zero v

theorem Clears.linkOf_eq (h : Clears m disk disk' R) (hR : ∀ d ∈ R, d < 2 ^ 28) (hc : c < 2 ^ 28) :
    (c ∈ R → linkOf m disk' c = 0) ∧ (c ∉ R → linkOf m disk' c = linkOf m disk c) := by
  refine ⟨fun hin => ?_, fun hnot => ?_⟩
  · rw [linkOf, h.word c hin, high_low_clear]
  · rw [linkOf, linkOf, h.word_of_not_mem hR hc hnot]

theorem Clears.set (h : Clears m disk disk' R) (hR : ∀ d ∈ R, d < 2 ^ 28) (hc : c < 2 ^ 28) :
    Clears m disk (disk'.setLe32 (m.entryPos c)
      ((0 &&& 0x0FFFFFFF) ||| (le32 disk' (m.entryPos c) &&& 0xF0000000))) (insert c R) := by
  have hself : le32 disk' (m.entryPos c) &&& 0xF0000000 =
      le32 disk (m.entryPos c) &&& 0xF0000000 := by
    by_cases hin : c ∈ R
    · rw [h.word c hin, Nat.land_assoc, Nat.and_self]
    · rw [h.word_of_not_mem hR hc hin]
  constructor
  · intro d hd
    by_cases heq : d = c
    · rw [heq, le32_setLe32_self _ _ (mask_lt _ _), hself, zero_and, zero_or]
    · have hd := hd.resolve_left heq
      rw [le32_setLe32_of_disjoint _ _ (entryPos_apart (hR d hd) hc heq), h.word d hd]
  · intro x hx
    rw [Buf.setLe32, Buf.copyAt_of_not_mem (hx c (Set.mem_insert c R))]
    exact h.rest x fun d hd => hx d (Set.mem_insert_of_mem c hd)

end

section

inductive FreesTo {σ : Type} (fs : Fs σ) : ℕ → World σ → World σ → Prop
  | stop {c : ℕ} {w : World σ} (h : validCluster c = false) : FreesTo fs c w w
  | step {c : ℕ} {w w' : World σ} (h : validCluster c = true)
      (hrest : FreesTo fs (getNextCluster fs c w).1
        (setCluster fs c 0 (getNextCluster fs c w).2).2 w') : FreesTo fs c w w'

structure Freeing (m : Mount) (disk : Buf) (first : ℕ) (Z : Finset ℕ) (dev : Buf) (c : ℕ) :
    Prop where
  clears : Clears m disk dev Z
  reachable : ∀ z ∈ Z, Reachable m disk first z
  current : validCluster c = true → Reachable m disk first c
  closed : ∀ z ∈ Z, validCluster (linkOf m disk z) = true →
    linkOf m disk z ∈ Z ∨ linkOf m disk z = c
  start : validCluster first = true → first ∈ Z ∨ first = c

variable {m : Mount} {disk dev : Buf} {first c : ℕ} {Z : Finset ℕ}

theorem Freeing.lt (h : Freeing m disk first Z dev c) : ∀ z ∈ (Z : Set ℕ), z < 2 ^ 28 :=
  fun z hz => (validCluster_bounds (h.reachable z hz).valid).2

theorem Freeing.init (disk : Buf) (first : ℕ) : Freeing m disk first ∅ disk first where
  clears := ⟨fun c hc => absurd hc (by simp), fun _ _ => rfl⟩
  reachable := by simp
  current := .start
  closed := by simp
  start := fun _ => Or.inr rfl

theorem Freeing.next (h : Freeing m disk first Z dev c) (hc : validCluster c = true) :
    Freeing m disk first (insert c Z) (dev.setLe32 (m.entryPos c)
      ((0 &&& 0x0FFFFFFF) ||| (le32 dev (m.entryPos c) &&& 0xF0000000))) (linkOf m dev c) := by
  have hlt := (validCluster_bounds hc).2
  obtain ⟨hin, hout⟩ := h.clears.linkOf_eq h.lt hlt
  constructor
  · rw [coe_insert]
    exact h.clears.set h.lt hlt
  · intro z hz
    rcases mem_insert.1 hz with rfl | hz
    · exact h.current hc
    · exact h.reachable z hz
  · intro hvalid
    by_cases hmem : c ∈ Z
    · rw [hin hmem, validCluster_zero] at hvalid
      cases hvalid
    · rw [hout hmem] at hvalid ⊢
      exact .next (h.current hc) hvalid
  · intro z hz hvalid
    rcases mem_insert.1 hz with rfl | hz
    · by_cases hmem : z ∈ Z
      · rcases h.closed z hmem hvalid with hlink | hlink
        · exact .inl (mem_insert_of_mem hlink)
        · exact .inl (mem_insert.2 (.inl hlink))
      · exact .inr (hout hmem).symm
    · rcases h.closed z hz hvalid with hlink | hlink
      · exact .inl (mem_insert_of_mem hlink)
      · exact .inl (mem_insert.2 (.inl hlink))
  · intro hfirst
    rcases h.start hfirst with hmem | heq
    · exact .inl (mem_insert_of_mem hmem)
    · exact .inl (mem_insert.2 (.inl heq))

theorem Freeing.done (h : Freeing m disk first Z dev c) (hc : validCluster c = false) :
    Clears m disk dev {z | Reachable m disk first z} := by
  have hall : ∀ z, Reachable m disk first z → z ∈ Z := by
    intro z hz
    induction hz with
    | start hfirst =>
      rcases h.start hfirst with hmem | heq
      · exact hmem
      · rw [heq, hc] at hfirst
        cases hfirst
    | next _ hvalid ih =>
      rcases h.closed _ ih hvalid with hmem | heq
      · exact hmem
      · rw [heq, hc] at hvalid
        cases hvalid
  have hset : {z | Reachable m disk first z} = (Z : Set ℕ) :=
    Set.ext fun z => ⟨hall z, h.reachable z⟩
  rw [hset]
  exact h.clears

variable {env : Env Buf} {w : World Buf}

def clearedAt (m : Mount) (dev : Buf) (c : ℕ) : Buf :=
  dev.setLe32 (m.entryPos c)
    ((0 &&& 0x0FFFFFFF) ||| (le32 dev (m.entryPos c) &&& 0xF0000000))

theorem FreesTo.step_disk {w' : World Buf} (hc : validCluster c = true)
    (h : FreesTo (diskFs true env m) (linkOf m w.dev c) { w with dev := clearedAt m w.dev c } w') :
    FreesTo (diskFs true env m) c w w' := by
  refine .step hc ?_
  rw [getNextCluster_eq_linkOf, setCluster_at]
  exact h

variable {fuel : ℕ}

theorem freeChain_step (hc : validCluster c = true) : freeChain (diskFs true env m) (fuel + 1) c w =
      freeChain (diskFs true env m) fuel (linkOf m w.dev c)
        { w with dev := clearedAt m w.dev c } := by
  rw [freeChain, if_pos hc, Io.bind_apply, getNextCluster_eq_linkOf, Io.bind_apply, setCluster_at]
  rfl

theorem freeChain_stop (hc : validCluster c = false) :
    freeChain (diskFs true env m) fuel c w = ((), w) := by
  cases fuel with
  | zero => rfl
  | succ fuel =>
    rw [freeChain, if_neg (by simp [hc])]
    rfl

theorem freeChain_run (h : Freeing m disk first Z w.dev c)
    (hfuel : 2 ^ 28 ≤ fuel + Z.card) :
    ∃ dev', freeChain (diskFs true env m) fuel c w = ((), { w with dev := dev' }) ∧
      FreesTo (diskFs true env m) c w { w with dev := dev' } ∧
      Clears m disk dev' {z | Reachable m disk first z} := by
  induction fuel generalizing Z c w with
  | zero =>
    have hsub : Z ⊆ (Finset.range (2 ^ 28)).erase 0 := by
      intro z hz
      have := validCluster_bounds (h.reachable z hz).valid
      exact mem_erase.2 ⟨by omega, mem_range.2 this.2⟩
    have hcard := card_le_card hsub
    rw [card_erase_of_mem (by simp), card_range] at hcard
    omega
  | succ fuel ih =>
    cases hc : validCluster c with
    | false => exact ⟨w.dev, freeChain_stop hc, .stop hc, h.done hc⟩
    | true =>
      have hnext := h.next hc
      by_cases hmem : c ∈ Z
      · have hlink : linkOf m w.dev c = 0 :=
          (h.clears.linkOf_eq h.lt (validCluster_bounds hc).2).1 hmem
        rw [hlink] at hnext
        refine ⟨clearedAt m w.dev c, ?_, .step_disk hc ?_, hnext.done validCluster_zero⟩
        · rw [freeChain_step hc, hlink, freeChain_stop validCluster_zero]
        · rw [hlink]
          exact .stop validCluster_zero
      · have hcard := card_insert_of_notMem hmem
        obtain ⟨dev', hrun, hfrees, hclears⟩ := ih (w := { w with dev := clearedAt m w.dev c })
          hnext (by omega)
        exact ⟨dev', (freeChain_step hc).trans hrun, .step_disk hc hfrees, hclears⟩

/-- The loop ends on every table and clears what can be reached. -/
theorem freeChain_clears (c : ℕ) :
    ∃ dev', freeChain (diskFs true env m) (2 ^ 28) c w = ((), { w with dev := dev' }) ∧
      FreesTo (diskFs true env m) c w { w with dev := dev' } ∧
      Clears m w.dev dev' {z | Reachable m w.dev c z} :=
  freeChain_run (Freeing.init w.dev c) (by simp)

end

section

variable {writable : Bool} {env : Env Buf} {m : Mount}

structure InSlot (m : Mount) (disk : Buf) (f : Found) : Prop where
  lt : f.index < m.slots
  entry_eq : f.entry = slotAt m disk f.cluster f.index
  usable : entryIsUsable f.entry = true

theorem resolvePath_inSlot (path : List UInt8) :
    Io.Reads (resolvePath (diskFs writable env m) path)
      fun disk r => ∀ f, r = some f → InSlot m disk f := by
  refine resolvePath_reads (fun c name w => ?_) path
  obtain ⟨hdev, hmatched⟩ := @findEntryInDir_matched writable env m name c w
  exact ⟨hdev, fun f hf => ⟨(hmatched f hf).lt, (hmatched f hf).entry_eq, (hmatched f hf).usable⟩⟩

end

section

variable {m : Mount} {disk : Buf} {f : Found}

def namePos (m : Mount) (f : Found) : ℕ := u32 (m.clusterOffset f.cluster + 32 * f.index)

theorem clusterOffset_aligned (m : Mount) (c : ℕ) :
    m.clusterOffset c % 512 = 0 ∧ m.clusterOffset c < 2 ^ 32 := by
  unfold clusterOffset u32
  omega

theorem namePos_aligned (m : Mount) (f : Found) :
    namePos m f % 32 = 0 ∧ namePos m f + 32 ≤ 2 ^ 32 := by
  have hoff := (clusterOffset_aligned m f.cluster).1
  unfold namePos u32
  omega

theorem u32_slot {j : ℕ} (hj : j < 32) :
    u32 (m.clusterOffset f.cluster + (32 * f.index + j)) = namePos m f + j := by
  have hoff := (clusterOffset_aligned m f.cluster).1
  unfold namePos u32
  omega

theorem InSlot.byte (h : InSlot m disk f) {j : ℕ} (hj : j < 32) :
    f.entry j = disk (namePos m f + j) := by
  rw [h.entry_eq, slotAt, entryOf, if_pos hj, u32_slot hj]

theorem InSlot.head (h : InSlot m disk f) : disk (namePos m f) ≠ 0xE5 := by
  have husable := h.usable
  unfold entryIsUsable at husable
  split_ifs at husable with h0 he5 hlfn hattr
  have hbyte := h.byte (show 0 < 32 by norm_num)
  rw [add_zero] at hbyte
  rw [← hbyte]
  exact he5

end

section

variable {env : Env Buf} {m : Mount} {w : World Buf}

theorem slot_offset {o i size x : ℕ} (ho : o % 512 = 0) (hlt : o < 2 ^ 32)
    (hi : 32 * i + 32 ≤ size) (hsize : size < 2 ^ 32) (hx : x < 2 ^ 32) :
    u32 (o + sub32 x o) = x ∧
      (32 * i ≤ sub32 x o ∧ sub32 x o < 32 * i + 32 ↔
        u32 (o + 32 * i) ≤ x ∧ x < u32 (o + 32 * i) + 32) ∧
      (32 * i ≤ sub32 x o → sub32 x o < 32 * i + 32 →
        sub32 x o - 32 * i = x - u32 (o + 32 * i)) := by
  unfold sub32 u32
  omega

/-- The disk after a write that may run over the end of the address space. -/
def writtenAt (disk : Buf) (offset size : ℕ) (buffer : Buf) : Buf := fun x =>
  if x < 2 ^ 32 ∧ sub32 x offset < size then buffer (sub32 x offset) else disk x

theorem vfsWriteDevice_wrapping (offset size : ℕ) (buffer : Buf) :
    vfsWriteDevice (diskDevice true) offset size buffer w =
      ((), { w with dev := writtenAt w.dev offset size buffer }) := rfl

theorem writeEntryAt_wrapping (hsize : m.clusterSize < 2 ^ 32) {f : Found} (hlt : f.index < m.slots)
    {e : Buf} (hret : (writeEntryAt (diskFs true env m) f.cluster f.index e w).1 = true) {x : ℕ}
    (hx : x < 2 ^ 32) : (writeEntryAt (diskFs true env m) f.cluster f.index e w).2.dev x =
      if namePos m f ≤ x ∧ x < namePos m f + 32 then e (x - namePos m f) else w.dev x := by
  rw [writeEntryAt_fst] at hret
  have hslots := m.clusterSize_eq
  obtain ⟨haligned, hoff⟩ := clusterOffset_aligned m f.cluster
  obtain ⟨hback, hin, hsub⟩ := slot_offset haligned hoff
    (show 32 * f.index + 32 ≤ m.clusterSize by omega) hsize hx
  rw [← namePos] at hin hsub
  simp only [writeEntryAt, diskFs_dev, diskFs_env, diskFs_mount, Io.bind_apply,
    kmallocBuf_of_ok hret, vfsReadDevice_wrapping, Option.getD_some, Io.pure_apply,
    vfsWriteDevice_wrapping, World.bump_dev, writtenAt]
  generalize hy : sub32 x (m.clusterOffset f.cluster) = y at hback hin hsub ⊢
  by_cases hslot : 32 * f.index ≤ y ∧ y < 32 * f.index + 32
  · rw [if_pos ⟨hx, by omega⟩, if_pos (hin.1 hslot), Buf.copyAt_of_mem hslot.1 hslot.2,
      hsub hslot.1 hslot.2]
  · rw [if_neg (mt hin.2 hslot)]
    split_ifs with hcluster
    · rw [Buf.copyAt_of_not_mem (by omega), Buf.copyAt_of_mem (zero_le _) (by omega),
        Nat.sub_zero, hback]
    · rfl

end

section

variable {m : Mount} {disk disk' : Buf} {f : Found}

def InTable (m : Mount) (x : ℕ) : Prop :=
  m.fatStartLba * 512 ≤ x ∧ x < (m.fatStartLba + m.sectorsPerFat) * 512

open Classical in
/-- The table changes in the entries of the clusters of the file, which are marked free with their
upper four bits kept, and the rest of the device in the first byte of the name. -/
structure DeletedExactly (m : Mount) (disk disk' : Buf) (f : Found) : Prop where
  table : ∀ c < m.maxClusters, tableWord m disk' c =
    if Reachable m disk (entryCluster f.entry) c then tableWord m disk c &&& 0xF0000000
    else tableWord m disk c
  rest : ∀ x < 2 ^ 32, ¬ InTable m x → disk' x = if x = namePos m f then 0xE5 else disk x

/-- The entry lies outside the table, and the words that the chain of the file reaches beyond the
table are clear or belong to that entry. -/
structure Contained (m : Mount) (disk : Buf) (f : Found) : Prop where
  entry : ¬ InTable m (namePos m f)
  chain : ∀ c, Reachable m disk (entryCluster f.entry) c → m.maxClusters ≤ c →
    linkOf m disk c = 0 ∨ (namePos m f ≤ m.entryPos c ∧ m.entryPos c + 4 ≤ namePos m f + 32)

/-- What a deletion leaves: the slot with its first byte changed, and the entries cleared
elsewhere. -/
structure Deleted (m : Mount) (disk disk' : Buf) (f : Found) : Prop where
  name : disk' (namePos m f) = 0xE5
  slot : ∀ j, 1 ≤ j → j < 32 → disk' (namePos m f + j) = disk (namePos m f + j)
  word : ∀ c, Reachable m disk (entryCluster f.entry) c →
    (m.entryPos c + 4 ≤ namePos m f ∨ namePos m f + 32 ≤ m.entryPos c) →
      le32 disk' (m.entryPos c) = le32 disk (m.entryPos c) &&& 0xF0000000
  rest : ∀ x < 2 ^ 32, (x < namePos m f ∨ namePos m f + 32 ≤ x) →
    (∀ c, Reachable m disk (entryCluster f.entry) c → x < m.entryPos c ∨ m.entryPos c + 4 ≤ x) →
      disk' x = disk x

theorem byte_of_le32 (b : Buf) (off : ℕ) {j : ℕ} (hj : j < 4) :
    b (off + j) = UInt8.ofNat (le32 b off / 256 ^ j) := by
  conv_lhs => rw [← Buf.setLe32_self b off]
  rw [Buf.setLe32, Buf.copyAt_of_mem (by omega) (by omega), Nat.add_sub_cancel_left]

theorem entryPos_aligned (m : Mount) (c : ℕ) :
    m.entryPos c % 4 = 0 ∧ m.entryPos c + 4 ≤ 2 ^ 32 := by
  obtain ⟨hsec, hend, hent, hlt⟩ := entry_in_sector m c
  unfold entryPos
  omega

theorem inTable_iff (hg : Geometry m) {x : ℕ} :
    InTable m x ↔ ∃ c < m.maxClusters, m.entryPos c ≤ x ∧ x < m.entryPos c + 4 := by
  have hmax := hg.max_eq
  rw [InTable]
  constructor
  · rintro ⟨hlo, hhi⟩
    have hc : (x - m.fatStartLba * 512) / 4 < m.maxClusters := by omega
    refine ⟨_, hc, ?_⟩
    rw [hg.entryPos_eq hc, tablePos]
    omega
  · rintro ⟨c, hc, hlo, hhi⟩
    rw [hg.entryPos_eq hc, tablePos] at hlo hhi
    omega

theorem not_inTable_of_beyond (hg : Geometry m) {c x : ℕ} (hc : c < 2 ^ 28)
    (hmax : m.maxClusters ≤ c) (hx : m.entryPos c ≤ x ∧ x < m.entryPos c + 4) :
    ¬ InTable m x := by
  rw [inTable_iff hg]
  rintro ⟨d, hd, hlo, hhi⟩
  have := entryPos_apart (m := m) hc (d := d) (by have := hg.max_lt; omega) (by omega)
  omega

theorem le32_low_byte {v : ℕ} (h : v &&& 0x0FFFFFFF = 0) : UInt8.ofNat v = 0 := by
  have hmod : v % 2 ^ 28 = 0 := (and_two_pow_sub_one_eq_mod v 28).symm.trans h
  rw [← UInt8.toNat_inj, UInt8.toNat_ofNat']
  change v % 256 = 0
  omega

theorem DeletedExactly.contained (hg : Geometry m) (hslot : InSlot m disk f)
    (h : Deleted m disk disk' f) (hd : DeletedExactly m disk disk' f) : Contained m disk f := by
  obtain ⟨hpos, hend⟩ := namePos_aligned m f
  constructor
  · intro hin
    obtain ⟨c, hc, hlo, hhi⟩ := (inTable_iff hg).1 hin
    have haligned := (entryPos_aligned m c).1
    have heq : namePos m f = m.tablePos c := by
      rw [← hg.entryPos_eq hc]
      omega
    have hbyte : disk' (namePos m f) = UInt8.ofNat (tableWord m disk' c) := by
      have := byte_of_le32 disk' (m.tablePos c) (show 0 < 4 by norm_num)
      rw [Nat.add_zero, pow_zero, Nat.div_one] at this
      rw [heq, this, tableWord]
    rw [h.name, hd.table c hc] at hbyte
    split_ifs at hbyte
    · rw [le32_low_byte (high_low_clear _)] at hbyte
      exact absurd hbyte (by decide)
    · have := byte_of_le32 disk (m.tablePos c) (show 0 < 4 by norm_num)
      rw [Nat.add_zero, pow_zero, Nat.div_one] at this
      rw [tableWord, ← this, ← heq] at hbyte
      exact hslot.head hbyte.symm
  · intro c hc hmax
    have hlt := (validCluster_bounds hc.valid).2
    obtain ⟨haligned, hbound⟩ := entryPos_aligned m c
    by_contra hnot
    rw [not_or] at hnot
    obtain ⟨hlink, hout⟩ := hnot
    have hapart : m.entryPos c + 4 ≤ namePos m f ∨ namePos m f + 32 ≤ m.entryPos c := by omega
    have hsame : le32 disk' (m.entryPos c) = le32 disk (m.entryPos c) := by
      refine le32_congr fun j hj => ?_
      rw [hd.rest _ (by omega) (not_inTable_of_beyond hg hlt hmax (by omega)), if_neg (by omega)]
    rw [h.word c hc hapart] at hsame
    apply hlink
    rw [linkOf, ← hsame, high_low_clear]

theorem Deleted.exactly (hg : Geometry m) (h : Deleted m disk disk' f) (hc : Contained m disk f) :
    DeletedExactly m disk disk' f := by
  obtain ⟨hpos, hend⟩ := namePos_aligned m f
  have houtside : ∀ x, InTable m x → x < namePos m f ∨ namePos m f + 32 ≤ x := by
    intro x hx
    have hentry := hc.entry
    unfold InTable at hx hentry
    omega
  constructor
  · intro c hlt
    have hsmall := hg.max_lt
    have hpos' := hg.entryPos_eq hlt
    have hall : ∀ j < 4, m.entryPos c + j < namePos m f ∨ namePos m f + 32 ≤ m.entryPos c + j :=
      fun j hj => houtside _ ((inTable_iff hg).2 ⟨c, hlt, by omega, by omega⟩)
    have h0 := hall 0 (by norm_num)
    have h3 := hall 3 (by norm_num)
    rw [tableWord, tableWord, ← hpos']
    split_ifs with hreach
    · exact h.word c hreach (by omega)
    · refine le32_congr fun j hj => h.rest _ ?_ (hall j hj) fun d hd => ?_
      · have := (entryPos_aligned m c).2
        omega
      · have hne : c ≠ d := fun heq => hreach (heq ▸ hd)
        have := entryPos_apart (m := m) (by omega) (validCluster_bounds hd.valid).2 hne
        omega
  · intro x hx hnot
    by_cases hname : x = namePos m f
    · rw [if_pos hname, hname, h.name]
    rw [if_neg hname]
    by_cases hin : namePos m f ≤ x ∧ x < namePos m f + 32
    · have hbyte := h.slot (x - namePos m f) (by omega) (by omega)
      rwa [Nat.add_sub_cancel' hin.1] at hbyte
    by_cases hword : ∃ c, Reachable m disk (entryCluster f.entry) c ∧
        m.entryPos c ≤ x ∧ x < m.entryPos c + 4
    · obtain ⟨c, hreach, hlo, hhi⟩ := hword
      have hbeyond : m.maxClusters ≤ c := by
        by_contra hlt
        exact hnot ((inTable_iff hg).2 ⟨c, by omega, hlo, hhi⟩)
      have haligned := (entryPos_aligned m c).1
      rcases hc.chain c hreach hbeyond with hlink | hslot
      · have hsame : le32 disk' (m.entryPos c) = le32 disk (m.entryPos c) := by
          rw [h.word c hreach (by omega), high_of_low_clear hlink]
        have hj : x - m.entryPos c < 4 := by omega
        have hbyte := byte_of_le32 disk' (m.entryPos c) hj
        rw [hsame, ← byte_of_le32 disk (m.entryPos c) hj, Nat.add_sub_cancel' hlo] at hbyte
        exact hbyte
      · omega
    · refine h.rest x hx (by omega) fun c hreach => ?_
      by_contra hnear
      exact hword ⟨c, hreach, by omega, by omega⟩

variable {env : Env Buf} {w : World Buf} {path : List UInt8}

theorem Geometry.clusterSize_lt (hg : Geometry m) : m.clusterSize < 2 ^ 32 := by
  have hmax := hg.max_eq
  have hpos := hg.max_pos
  have hle : m.sectorsPerCluster ≤ (m.maxClusters - 2) * m.sectorsPerCluster :=
    Nat.le_mul_of_pos_left _ (by omega)
  exact (mul_le_mul_right 512 (hle.trans (le_add_left _ _))).trans_lt hg.end_lt

theorem deleteFile_deleted (hg : Geometry m)
    (hret : (deleteFile (diskFs true env m) path w).1 = true) :
    ∃ f, (resolvePath (diskFs true env m) path w).1 = some f ∧ InSlot m w.dev f ∧
      Deleted m w.dev (deleteFile (diskFs true env m) path w).2.dev f := by
  have hread : Io.Reads (resolvePath (diskFs true env m) path) _ := resolvePath_inSlot path
  obtain ⟨hdev, hslots⟩ := hread w
  rw [deleteFile, Io.bind_apply] at hret ⊢
  generalize resolvePath (diskFs true env m) path w = r at hdev hslots hret ⊢
  obtain ⟨r, w₁⟩ := r
  cases r with
  | none => cases hret
  | some f =>
    have hslot := hslots f rfl
    dsimp only at hdev hret ⊢
    cases hdir : entryIsDir f.entry with
    | true =>
      rw [hdir] at hret
      cases hret
    | false =>
      rw [hdir, if_neg (by simp), Io.bind_apply] at hret
      rw [if_neg (by simp), Io.bind_apply]
      obtain ⟨dev', hrun, -, hclears⟩ : ∃ dev', freeChain (diskFs true env m) (2 ^ 28)
          (entryCluster f.entry) w₁ = _ ∧ _ ∧ _ := freeChain_clears (entryCluster f.entry)
      rw [hdev] at hclears
      rw [hrun] at hret ⊢
      obtain ⟨hpos, hend⟩ := namePos_aligned m f
      have hbyte {x : ℕ} (hx : x < 2 ^ 32) :=
        writeEntryAt_wrapping hg.clusterSize_lt hslot.lt hret hx
      refine ⟨f, rfl, hslot, ?_, fun j h₁ h₂ => ?_, fun c hc hout => ?_, fun x hx hout hwords => ?_⟩
      · rw [hbyte (by omega), if_pos (by omega), Nat.sub_self]
        rfl
      · rw [hbyte (by omega), if_pos (by omega), Nat.add_sub_cancel_left,
          Function.update_of_ne (by omega), hslot.byte h₂]
      · rw [← hclears.word c hc]
        refine le32_congr fun j hj => ?_
        have := (entryPos_aligned m c).2
        rw [hbyte (by omega), if_neg (by omega)]
      · rw [hbyte hx, if_neg (by omega)]
        exact hclears.rest x hwords

/-- A deletion ends on every table. When it reports success, the table and the rest of the device
have changed as they should exactly when the entry and the chain of the file are contained. -/
theorem deleteFile_exactly_iff (bpb : BootSector) (hacc : bpb.accepted = true)
    (hvol : bpb.belowFourGiB) (m : Mount) (hm : m = Mount.ofBootSector bpb) (env : Env Buf)
    (w : World Buf) (path : List UInt8) :
    (∀ c w', FreesTo (diskFs true env m) c w' (freeChain (diskFs true env m) (2 ^ 28) c w').2) ∧
    ((deleteFile (diskFs true env m) path w).1 = true →
      ∃ f, (resolvePath (diskFs true env m) path w).1 = some f ∧
        (DeletedExactly m w.dev (deleteFile (diskFs true env m) path w).2.dev f ↔
          Contained m w.dev f)) := by
  have hg : Geometry m := hm ▸ geometry_ofBootSector hacc hvol
  refine ⟨fun c w' => ?_, fun hret => ?_⟩
  · obtain ⟨dev', hrun, hfrees, -⟩ : ∃ dev', freeChain (diskFs true env m) (2 ^ 28) c w' = _ ∧
        FreesTo (diskFs true env m) c w' _ ∧ _ := freeChain_clears c
    rw [hrun]
    exact hfrees
  · obtain ⟨f, hf, hslot, hdeleted⟩ := deleteFile_deleted hg hret
    exact ⟨f, hf, fun h => h.contained hg hslot hdeleted, fun h => hdeleted.exactly hg h⟩

end

def oneLetter (c : UInt8) : Buf := fun j => if j = 0 then c else 0x20

/-- The small volume with two files: `A` from the given cluster on, and `B` of seven bytes. Cluster
3 ends a chain. -/
def twoFiles (first : ℕ) : World Buf :=
  bootWorld (Buf.copyAt (Buf.copyAt (tableSet smallMount (emptyVolume smallMount) 3 0x0FFFFFFF)
    (smallMount.clusterPos 2) 32 (newEntry (oneLetter 0x41) 0x20 first))
    (smallMount.clusterPos 2 + 32) 32 (withSize (newEntry (oneLetter 0x42) 0x20 5) 7))

theorem reachable_three {c : ℕ} (h : Reachable smallMount (twoFiles 3).dev 3 c) : c = 3 := by
  induction h with
  | start => rfl
  | next _ hvalid ih =>
    rw [ih] at hvalid
    exact absurd hvalid (by decide +kernel)

/-- Deleting `A` with its chain of one cluster changes what it should. -/
theorem twoFiles_deleted : ∃ f,
    (resolvePath (diskFs true plainEnv smallMount) [0x41] (twoFiles 3)).1 = some f ∧
    DeletedExactly smallMount (twoFiles 3).dev
      (deleteFile (diskFs true plainEnv smallMount) [0x41] (twoFiles 3)).2.dev f := by
  have hfound : (resolvePath (diskFs true plainEnv smallMount) [0x41] (twoFiles 3)).1.map
      (fun f => (namePos smallMount f, entryCluster f.entry)) = some (33 * 512, 3) := by
    decide +kernel
  obtain ⟨f, hf, hiff⟩ := (deleteFile_exactly_iff smallBootSector smallBootSector_accepted
    smallBootSector_belowFourGiB smallMount rfl plainEnv (twoFiles 3) [0x41]).2 (by decide +kernel)
  rw [hf] at hfound
  obtain ⟨hpos, hfirst⟩ := Prod.mk.inj (Option.some.inj hfound)
  refine ⟨f, hf, hiff.2 ⟨?_, fun c hc hmax => ?_⟩⟩
  · rw [hpos, InTable]
    decide +kernel
  · rw [hfirst] at hc
    rw [reachable_three hc] at hmax
    exact absurd hmax (by decide +kernel)

/-- Where the first cluster of `A` lies beyond the table, its word is the size of `B`: deleting `A`
reports success and sets the size of `B` to zero. -/
theorem twoFiles_other_changed :
    (deleteFile (diskFs true plainEnv smallMount) [0x41] (twoFiles 143)).1 = true ∧
    (resolvePath (diskFs true plainEnv smallMount) [0x41] (twoFiles 143)).1.map
      (fun f => (f.cluster, f.index)) = some (2, 0) ∧
    entrySize (slotAt smallMount (twoFiles 143).dev 2 1) = 7 ∧
    entrySize (slotAt smallMount
      (deleteFile (diskFs true plainEnv smallMount) [0x41] (twoFiles 143)).2.dev 2 1) = 0 := by
  decide +kernel

end MicroK.Fat32
