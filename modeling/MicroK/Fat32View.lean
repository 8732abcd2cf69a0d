import MicroK.SuccessorChain
import MicroK.Fat32Files

/-!
# Consistent volumes

A view of a volume is its successor function and its directory slots. The directories are the
root and whatever a directory entry of a directory leads to; the entries `.` and `..` at the head
of a cluster are left aside, since a path never goes through them. A view is consistent when the
root and every live entry head chains that end properly and share no cluster.
-/

namespace MicroK.Fat32

open SuccessorChain Buf Nat Mount

structure View where
  next : ℕ → ℕ
  slot : ℕ → ℕ → Buf

def Mount.clusterPos (m : Mount) (cluster : ℕ) : ℕ :=
  m.dataStartLba * 512 + (cluster - 2) * m.clusterSize

def viewOf (m : Mount) (disk : Buf) : View where
  next := nextOf m disk
  slot c := entryOf (disk.from (m.clusterPos c))

def InRange (m : Mount) (c : ℕ) : Prop := 2 ≤ c ∧ c < m.maxClusters

def EndOfChain (c : ℕ) : Prop := 0x0FFFFFF8 ≤ c

/-- The clusters from `h` on, all in range, up to an end-of-chain mark. -/
structure Chain (m : Mount) (v : View) (h : ℕ) (l : List ℕ) : Prop where
  leads : Leads v.next (InRange m) EndOfChain h l
  ne_nil : l ≠ []

/-- The entries `.` and `..` of a directory cluster. -/
def isDot (v : View) (k i : ℕ) : Bool :=
  (i == 0 && sameName (v.slot k 0) dotName) ||
    (i == 1 && sameName (v.slot k 1) dotDotName && !entryIsLfn (v.slot k 0))

/-- The first clusters of the directories of a volume. -/
inductive IsDir (m : Mount) (v : View) : ℕ → Prop
  | root : IsDir m v m.rootCluster
  | sub {h k i : ℕ} {l : List ℕ} (hdir : IsDir m v h) (hl : Chain m v h l) (hk : k ∈ l)
      (hi : i < m.slots) (he : entryIsDir (v.slot k i) = true) (hdot : isDot v k i = false) :
      IsDir m v (entryCluster (v.slot k i))

def DirCluster (m : Mount) (v : View) (k : ℕ) : Prop :=
  ∃ h l, IsDir m v h ∧ Chain m v h l ∧ k ∈ l

/-- A directory entry in use, other than `.` and `..`, volume labels and long-name parts. -/
structure Live (m : Mount) (v : View) (k i : ℕ) : Prop where
  dir : DirCluster m v k
  lt : i < m.slots
  usable : entryIsUsable (v.slot k i) = true
  not_dot : isDot v k i = false

structure Consistent (m : Mount) (v : View) : Prop where
  root_chain : ∃ l, Chain m v m.rootCluster l
  entry_chain : ∀ {k i}, Live m v k i → ∃ l, Chain m v (entryCluster (v.slot k i)) l
  root_disjoint : ∀ {k i l r}, Live m v k i → Chain m v (entryCluster (v.slot k i)) l →
    Chain m v m.rootCluster r → ∀ c ∈ l, c ∉ r
  disjoint : ∀ {k i k' i' l l'}, Live m v k i → Live m v k' i' → (k, i) ≠ (k', i') →
    Chain m v (entryCluster (v.slot k i)) l → Chain m v (entryCluster (v.slot k' i')) l' →
    ∀ c ∈ l, c ∉ l'

section

variable {m : Mount} {v v' : View} {h : ℕ} {l l' : List ℕ} (hmax : m.maxClusters < 2 ^ 25)

variable (hl : Chain m v h l)
include hl

include hmax in
theorem Chain.unique (hl' : Chain m v h l') : l = l' := by
  refine hl.leads.unique (fun c hc hstop => ?_) hl'.leads
  have h1 := hc.2
  have h2 : 0x0FFFFFF8 ≤ c := hstop
  omega

include hmax in
theorem Chain.nodup : l.Nodup := by
  refine hl.leads.nodup (fun c hc hstop => ?_)
  have h1 := hc.2
  have h2 : 0x0FFFFFF8 ≤ c := hstop
  omega

theorem Chain.congr (heq : ∀ c ∈ l, v'.next c = v.next c) :
    Chain m v' h l := ⟨hl.leads.congr heq, hl.ne_nil⟩

theorem Chain.inRange {c : ℕ} (hc : c ∈ l) : InRange m c :=
  hl.leads.ok_of_mem hc

theorem Chain.head_mem : h ∈ l := hl.leads.head_mem hl.ne_nil

theorem Chain.next_ne_zero {c : ℕ} (hc : c ∈ l) : v.next c ≠ 0 := by
  rcases hl.leads.next_mem_or_stop hc with hmem | hstop
  · have := (hl.inRange hmem).1
    omega
  · have h2 : 0x0FFFFFF8 ≤ v.next c := hstop
    omega

end

variable {m : Mount}

theorem Mount.clusterSize_eq (m : Mount) : m.clusterSize = 32 * m.slots := by
  unfold Mount.slots Mount.clusterSize
  omega

theorem Geometry.slots_pos (hg : Geometry m) : 2 ≤ m.slots := by
  have := hg.spc_pos
  unfold Mount.slots Mount.clusterSize
  omega

theorem cluster_end {c : ℕ} (hc : InRange m c) :
    m.clusterPos c + m.clusterSize ≤
      (m.dataStartLba + (m.maxClusters - 2) * m.sectorsPerCluster) * 512 := by
  obtain ⟨h2, hlt⟩ := hc
  have hstep : (c - 2 + 1) * m.sectorsPerCluster ≤ (m.maxClusters - 2) * m.sectorsPerCluster :=
    Nat.mul_le_mul_right _ (by omega)
  calc m.clusterPos c + m.clusterSize
      = (m.dataStartLba + (c - 2 + 1) * m.sectorsPerCluster) * 512 := by
        unfold Mount.clusterPos Mount.clusterSize
        ring
    _ ≤ _ := Nat.mul_le_mul_right 512 (Nat.add_le_add_left hstep _)

theorem Geometry.cluster_lt (hg : Geometry m) {c : ℕ} (hc : InRange m c) :
    m.clusterPos c + m.clusterSize ≤ 2 ^ 32 := (cluster_end hc).trans hg.end_lt.le

theorem Geometry.clusterOffset_eq (hg : Geometry m) {c : ℕ} (hc : InRange m c) :
    m.clusterOffset c = m.clusterPos c := by
  have hend := (cluster_end hc).trans_lt hg.end_lt
  have hmax := hg.max_lt
  have hpos : m.clusterPos c = (m.dataStartLba + (c - 2) * m.sectorsPerCluster) * 512 := by
    unfold Mount.clusterPos Mount.clusterSize
    ring
  have hlt : (m.dataStartLba + (c - 2) * m.sectorsPerCluster) * 512 < 2 ^ 32 := by
    omega
  have hc32 : c < 2 ^ 32 := by
    have := hc.2
    omega
  rw [hpos, Mount.clusterOffset, Mount.clusterToLba, sub32_of_le hc.1 hc32]
  generalize (c - 2) * m.sectorsPerCluster = x at hlt
  have hx : u32 x = x := u32_of_lt (by omega)
  have hsum : u32 (m.dataStartLba + x) = m.dataStartLba + x := u32_of_lt (by omega)
  rw [hx, hsum, u32_of_lt hlt]

theorem clusterPos_disjoint {c d : ℕ} (hc : 2 ≤ c) (hd : 2 ≤ d) (hne : c ≠ d) :
    m.clusterPos c + m.clusterSize ≤ m.clusterPos d ∨
      m.clusterPos d + m.clusterSize ≤ m.clusterPos c := by
  unfold clusterPos
  rcases lt_or_gt_of_ne hne with h | h
  · left
    have hstep : (c - 2 + 1) * m.clusterSize ≤ (d - 2) * m.clusterSize :=
      mul_le_mul_right _ (by omega)
    rw [add_mul, one_mul] at hstep
    omega
  · right
    have hstep : (d - 2 + 1) * m.clusterSize ≤ (c - 2) * m.clusterSize :=
      mul_le_mul_right _ (by omega)
    rw [add_mul, one_mul] at hstep
    omega

theorem Geometry.table_le_cluster (hg : Geometry m) {c d : ℕ} (hc : c < m.maxClusters) :
    m.tablePos c + 4 ≤ m.clusterPos d :=
  (hg.table_end hc).trans (le_add_right _ _)

section

variable {disk disk' : Buf} {c d : ℕ}

theorem nextOf_congr (h : ∀ j, m.tablePos c ≤ j → j < m.tablePos c + 4 → disk' j = disk j) :
    nextOf m disk' c = nextOf m disk c := by
  unfold nextOf tableWord
  rw [le32_congr (fun j hj => h _ (by omega) (by omega))]

variable {i : ℕ}

theorem slot_congr (hi : i < m.slots)
    (h : ∀ j, m.clusterPos c ≤ j → j < m.clusterPos c + m.clusterSize → disk' j = disk j) :
    (viewOf m disk').slot c i = (viewOf m disk).slot c i := by
  have hsize := m.clusterSize_eq
  funext j
  change entryOf (disk'.from _) i j = entryOf (disk.from _) i j
  unfold entryOf Buf.from
  split_ifs with hj
  · exact h _ (by omega) (by omega)
  · rfl

theorem slot_tableSet (hg : Geometry m) (hc : c < m.maxClusters) {v i : ℕ} (hi : i < m.slots) :
    (viewOf m (tableSet m disk c v)).slot d i = (viewOf m disk).slot d i := by
  have hle := hg.table_le_cluster (d := d) hc
  exact slot_congr hi (fun j hj _ => tableSet_of_not_mem (by omega))

def clusterSet (m : Mount) (disk : Buf) (c : ℕ) (buf : Buf) : Buf :=
  disk.copyAt (m.clusterPos c) m.clusterSize buf

theorem nextOf_clusterSet (hg : Geometry m) (hd : d < m.maxClusters) (buf : Buf) :
    nextOf m (clusterSet m disk c buf) d = nextOf m disk d := by
  have hle := hg.table_le_cluster (d := c) hd
  exact nextOf_congr (fun j _ hj => copyAt_of_not_mem (by omega))

theorem slot_clusterSet_of_ne (hc : 2 ≤ c) (hd : 2 ≤ d) (hne : d ≠ c) (buf : Buf)
    (hi : i < m.slots) :
    (viewOf m (clusterSet m disk c buf)).slot d i = (viewOf m disk).slot d i := by
  have hdisj := clusterPos_disjoint (m := m) hd hc hne
  exact slot_congr hi (fun j _ _ => copyAt_of_not_mem (by omega))

theorem slot_clusterSet_self (buf : Buf) (hi : i < m.slots) :
    (viewOf m (clusterSet m disk c buf)).slot c i = entryOf buf i := by
  have hsize := m.clusterSize_eq
  funext j
  change entryOf ((clusterSet m disk c buf).from _) i j = entryOf buf i j
  unfold entryOf Buf.from
  split_ifs with hj
  · rw [clusterSet, copyAt_of_mem (by omega) (by omega), Nat.add_sub_cancel_left]
  · rfl

def slotSet (m : Mount) (disk : Buf) (c i : ℕ) (e : Buf) : Buf :=
  disk.copyAt (m.clusterPos c + 32 * i) 32 e

theorem nextOf_slotSet (hg : Geometry m) (hd : d < m.maxClusters) (e : Buf) :
    nextOf m (slotSet m disk c i e) d = nextOf m disk d := by
  have hle := hg.table_le_cluster (d := c) hd
  exact nextOf_congr (fun j _ hj => copyAt_of_not_mem (by omega))

theorem slot_slotSet_self {e : Buf} (he : ∀ j, 32 ≤ j → e j = 0) :
    (viewOf m (slotSet m disk c i e)).slot c i = e := by
  funext j
  change entryOf ((slotSet m disk c i e).from _) i j = e j
  unfold entryOf Buf.from
  split_ifs with hj
  · rw [slotSet, copyAt_of_mem (by omega) (by omega)]
    congr 1
    omega
  · exact (he j (by omega)).symm

theorem slot_slotSet_of_ne (hc : 2 ≤ c) (hd : 2 ≤ d) {i i' : ℕ} (hi : i < m.slots)
    (hi' : i' < m.slots) (hne : (d, i') ≠ (c, i)) (e : Buf) :
    (viewOf m (slotSet m disk c i e)).slot d i' = (viewOf m disk).slot d i' := by
  have hsize := m.clusterSize_eq
  funext j
  change entryOf ((slotSet m disk c i e).from _) i' j = entryOf (disk.from _) i' j
  unfold entryOf Buf.from
  split_ifs with hj
  · rw [slotSet, copyAt_of_not_mem]
    by_cases hdc : d = c
    · have hii : i' ≠ i := fun hii => hne (by rw [hdc, hii])
      subst hdc
      omega
    · have hdisj := clusterPos_disjoint (m := m) hd hc hdc
      omega
  · rfl

def diskOf (m : Mount) (v : View) : Buf := fun x =>
  if x < m.dataStartLba * 512 then
    UInt8.ofNat (v.next ((x - m.fatStartLba * 512) / 4) / 256 ^ ((x - m.fatStartLba * 512) % 4))
  else
    v.slot ((x - m.dataStartLba * 512) / m.clusterSize + 2)
      ((x - m.dataStartLba * 512) % m.clusterSize / 32) ((x - m.dataStartLba * 512) % 32)

theorem nextOf_diskOf (hg : Geometry m) (hc : c < m.maxClusters) {v : View}
    (hv : v.next c < 2 ^ 28) : nextOf m (diskOf m v) c = v.next c := by
  have hend := hg.table_end hc
  have hword : tableWord m (diskOf m v) c = v.next c := by
    have hset := le32_setLe32_self (fun _ => 0) 0 (show v.next c < 2 ^ 32 by omega)
    refine (le32_congr (fun j hj => ?_)).trans hset
    rw [Buf.setLe32, copyAt_of_mem (zero_le _) (by omega), diskOf, if_pos (by omega)]
    have hsub : m.tablePos c + j - m.fatStartLba * 512 = 4 * c + j := by
      unfold tablePos
      omega
    rw [hsub, show (4 * c + j) / 4 = c by omega, show (4 * c + j) % 4 = j by omega, zero_add,
      Nat.sub_zero]
  rw [nextOf, hword, show 0x0FFFFFFF = 2 ^ 28 - 1 from rfl, and_two_pow_sub_one_eq_mod]
  exact mod_eq_of_lt hv

theorem slot_diskOf (hc : 2 ≤ c) {v : View} (hi : i < m.slots)
    (hv : ∀ j, 32 ≤ j → v.slot c i j = 0) : (viewOf m (diskOf m v)).slot c i = v.slot c i := by
  have hsize := m.clusterSize_eq
  funext j
  change entryOf ((diskOf m v).from (m.clusterPos c)) i j = _
  unfold entryOf Buf.from diskOf
  split_ifs with hj hlt
  · unfold clusterPos at hlt
    omega
  · have hsub : m.clusterPos c + (32 * i + j) - m.dataStartLba * 512 =
        m.clusterSize * (c - 2) + (32 * i + j) := by
      unfold clusterPos
      rw [mul_comm m.clusterSize]
      omega
    have hlt' : 32 * i + j < m.clusterSize := by omega
    have hmod : (m.clusterSize * (c - 2) + (32 * i + j)) % 32 = j := by
      rw [hsize, mul_assoc]
      omega
    rw [hsub, mul_add_div (by omega), mul_add_mod, mod_eq_of_lt hlt',
      div_eq_of_lt hlt', hmod]
    congr 1
    · omega
    · omega
  · exact (hv j (by omega)).symm

end

end MicroK.Fat32
