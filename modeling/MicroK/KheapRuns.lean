import MicroK.Runs
import MicroK.KheapFree

/-!
# Runs of the heap and its clients

A client state is the heap with the pointers that are live, each with the number of bytes asked
for, and the pointers freed since the last `kmalloc`. Clients write words inside live payloads
and call `kfree` on live pointers, on the null pointer, on addresses outside the window and on
pointers freed since the last `kmalloc`.
-/

namespace MicroK.Kheap

open BlockTiling

structure Client where
  heap : Heap
  live : List (ℕ × ℕ)
  freed : List ℕ

inductive Call where
  | kmalloc (n : BitVec 32)
  | kfree (ptr : BitVec 32)
  | write (addr : ℕ) (value : BitVec 32)

def Client.init (minStart : BitVec 32) (mem : ℕ → ℕ) : Client := ⟨Kheap.init minStart mem, [], []⟩

def Client.isLive (c : Client) (ptr : ℕ) : Bool := c.live.any (fun q => q.1 == ptr)

def step (c : Client) : Call → Client
  | .kmalloc n =>
    let r := kmalloc c.heap n.toNat
    ⟨r.1, if r.2 = 0 then c.live else (r.2, n.toNat) :: c.live, []⟩
  | .kfree ptr =>
    ⟨kfree c.heap ptr.toNat, c.live.filter (fun q => q.1 != ptr.toNat),
      if c.isLive ptr.toNat then ptr.toNat :: c.freed else c.freed⟩
  | .write addr value => { c with heap := c.heap.store addr value.toNat }

def Legal (c : Client) : Call → Prop
  | .kmalloc _ => True
  | .kfree ptr =>
    c.isLive ptr.toNat = true ∨ ptr.toNat = 0 ∨ ptr.toNat < c.heap.physStart ∨
      c.heap.physStart + heapSize ≤ ptr.toNat ∨ ptr.toNat ∈ c.freed
  | .write addr _ => 4 ∣ addr ∧ ∃ q ∈ c.live, q.1 ≤ addr ∧ addr < q.1 + q.2

/-- What `kmalloc` of `n` bytes may return over the blocks `bs`: the lowest free block that is
large enough, or null when there is none or rounding `n` up wraps. -/
def Served (bs : List Block) (n ptr : ℕ) : Prop :=
  (ptr = 0 ∧ (2 ^ 32 ≤ n + 3 ∨ ∀ b ∈ bs, b.free = true → b.size < align4 n)) ∨
    ∃ b ∈ bs, ptr = b.addr + headerSize ∧ b.free = true ∧ align4 n ≤ b.size ∧
      ∀ d ∈ bs, d.free = true → align4 n ≤ d.size → b.addr ≤ d.addr

/-- The header chain of a client state is the list `bs`, and it is in order. -/
structure Sound (c : Client) (bs : List Block) : Prop where
  start_eq : c.heap.start = headAddr bs
  laid : Laid c.heap.mem bs
  tiles : Tiles headerSize c.heap.physStart (c.heap.physStart + heapSize) bs
  sum_eq : (bs.map (fun b => headerSize + b.size)).sum = heapSize
  separated : Separated bs
  aligned : ∀ b ∈ bs, 4 ∣ b.addr
  payload : ∀ q ∈ c.live, ∃ b ∈ bs, b.free = false ∧ b.addr + headerSize = q.1 ∧ q.2 ≤ b.size
  disjoint : c.live.Pairwise (fun q r => q.1 + q.2 ≤ r.1 ∨ r.1 + r.2 ≤ q.1)
  kfree_other : ∀ ptr : BitVec 32, Legal c (.kfree ptr) → c.isLive ptr.toNat = false →
    kfree c.heap ptr.toNat = c.heap
  kmalloc_first : ∀ n : BitVec 32, n.toNat ≠ 0 → Served bs n.toNat (kmalloc c.heap n.toNat).2

/-- The invariant of a run. A freed pointer still has a header marked free in front of it, inside
some free block. -/
structure Inv (c : Client) (bs : List Block) : Prop where
  fills : Fills c.heap c.heap.physStart bs
  start_eq : c.heap.start = c.heap.physStart
  separated : Separated bs
  aligned : 4 ∣ c.heap.physStart
  granular : Granular 4 bs
  live_mem : ∀ q ∈ c.live, 0 < q.2 ∧
    ∃ b ∈ bs, b.free = false ∧ b.addr + headerSize = q.1 ∧ q.2 ≤ b.size
  live_nodup : (c.live.map Prod.fst).Nodup
  freed_mem : ∀ ptr ∈ c.freed, c.heap.mem (ptr - 4) = 1 ∧
    ∃ b ∈ bs, b.free = true ∧ b.addr + headerSize ≤ ptr ∧ ptr ≤ b.addr + headerSize + b.size
  used_live : ∀ b ∈ bs, b.free = false → ∃ q ∈ c.live, b.addr + headerSize = q.1

variable {n : ℕ} {c : Client} {bs : List Block}

theorem align4_eq (hn : n + 3 < 2 ^ 32) : align4 n = (n + 3) / 4 * 4 := by
  unfold align4
  rw [u32_of_lt hn]
  exact and_high_mask (k := 2) hn (by norm_num)

theorem align4_of_wrap (hn : n < 2 ^ 32) (hwrap : 2 ^ 32 ≤ n + 3) : align4 n = 0 := by
  have hlt : u32 (n + 3) < 2 ^ 32 := u32_lt _
  have hmask := and_high_mask (k := 2) hlt (by norm_num)
  have hsmall : u32 (n + 3) < 4 := by
    unfold u32
    omega
  exact hmask.trans (by rw [Nat.div_eq_of_lt (by omega), Nat.zero_mul])

theorem le_align4 (hn : n + 3 < 2 ^ 32) : n ≤ align4 n := by
  rw [align4_eq hn]
  omega

variable (h : Inv c bs)
include h

theorem Inv.length_lt : bs.length < loopFuel := by
  have hlen := h.fills.tiles.length_le
  simp only [loopFuel, headerSize, heapSize] at hlen ⊢
  omega

theorem Inv.headAddr_eq : headAddr bs = c.heap.start := by
  have ht := h.fills.tiles
  cases bs with
  | nil =>
    have hsize : heapSize = 0x2000000 := rfl
    change c.heap.physStart = c.heap.physStart + heapSize at ht
    omega
  | cons b bs =>
    rw [h.start_eq]
    exact ht.1

theorem kmalloc_cases (n : ℕ) :
    (kmalloc c.heap n = (c.heap, 0) ∧ (align4 n = 0 ∨ bs.find? (fits (align4 n)) = none)) ∨
      ∃ b, bs.find? (fits (align4 n)) = some b ∧ align4 n ≠ 0 ∧
        kmalloc c.heap n = (takeBlock c.heap b.addr (align4 n), b.addr + headerSize) := by
  rw [kmalloc]
  split_ifs with hzero
  · exact .inl ⟨rfl, .inl hzero⟩
  · rw [← h.headAddr_eq, kmallocLoop_eq h.fills h.length_lt]
    cases hfind : bs.find? (fits (align4 n)) with
    | none => exact .inl ⟨rfl, .inr rfl⟩
    | some b => exact .inr ⟨b, rfl, hzero, rfl⟩

theorem served_kmalloc {n : BitVec 32} (hn : n.toNat ≠ 0) :
    Served bs n.toNat (kmalloc c.heap n.toNat).2 := by
  rcases kmalloc_cases h n.toNat with ⟨he, hwhy⟩ | ⟨b, hfind, -, he⟩
  · rw [he]
    refine .inl ⟨rfl, ?_⟩
    by_cases hwrap : 2 ^ 32 ≤ n.toNat + 3
    · exact .inl hwrap
    · have hpos : align4 n.toNat ≠ 0 := by
        have := le_align4 (Nat.lt_of_not_le hwrap)
        omega
      have hnone := List.find?_eq_none.1 (hwhy.resolve_left hpos)
      refine .inr (fun b hb hfree => ?_)
      have hnot : ¬ (b.free = true ∧ align4 n.toNat ≤ b.size) :=
        fun hfit => hnone b hb (fits_iff.2 hfit)
      exact Nat.lt_of_not_le (fun hle => hnot ⟨hfree, hle⟩)
  · rw [he]
    obtain ⟨hfree, hle⟩ := fits_iff.1 (List.find?_some hfind)
    refine .inr ⟨b, List.mem_of_find?_eq_some hfind, rfl, hfree, hle, ?_⟩
    intro d hd hdfree hdle
    exact h.fills.tiles.find_le hfind hd (fits_iff.2 ⟨hdfree, hdle⟩)

theorem ptrToHeader_live {b : Block} (hb : b ∈ bs) (hsize : 0 < b.size) :
    ptrToHeader c.heap (b.addr + headerSize) = some b.addr := by
  have hh : headerSize = 16 := rfl
  have hbounds := h.fills.tiles.mem_bounds hb
  have hfit := h.fills.window.fits
  rw [ptrToHeader, if_neg (by omega), u32_of_lt (n := c.heap.physStart + headerSize) (by omega),
    u32_of_lt hfit, if_neg (by omega), Nat.add_sub_cancel, if_pos (h.fills.headerOk hb)]

omit h

theorem kfree_of_isFree {hp : Heap} {ptr : ℕ} (hfree : hp.mem (ptr - 4) = 1)
    (hptr : headerSize ≤ ptr) : kfree hp ptr = hp := by
  rw [kfree]
  cases hheader : ptrToHeader hp ptr with
  | none => rfl
  | some header =>
    have hh : headerSize = 16 := rfl
    have haddr : header = ptr - headerSize := by
      rw [ptrToHeader] at hheader
      split_ifs at hheader
      exact (Option.some.inj hheader).symm
    have hword : hp.isFree header = 1 := by
      rw [Heap.isFree, haddr, ← hfree]
      congr 1
      omega
    simp [hword]

theorem kfree_of_outside {hp : Heap} (hw : Window hp) {ptr : ℕ}
    (hout : ptr = 0 ∨ ptr < hp.physStart ∨ hp.physStart + heapSize ≤ ptr) : kfree hp ptr = hp := by
  have hh : headerSize = 16 := rfl
  have hheap : heapSize = 0x2000000 := rfl
  have hfit := hw.fits
  have hnone : ptrToHeader hp ptr = none := by
    rw [ptrToHeader, u32_of_lt (n := hp.physStart + headerSize) (by omega), u32_of_lt hfit]
    split_ifs <;> first | rfl | omega
  rw [kfree, hnone]

theorem kfree_other_eq (h : Inv c bs) {ptr : BitVec 32} (hlegal : Legal c (.kfree ptr))
    (hlive : c.isLive ptr.toNat = false) : kfree c.heap ptr.toNat = c.heap := by
  rcases hlegal with hl | hz | hlow | hhigh | hfreed
  · rw [hlive] at hl
    cases hl
  · exact kfree_of_outside h.fills.window (.inl hz)
  · exact kfree_of_outside h.fills.window (.inr (.inl hlow))
  · exact kfree_of_outside h.fills.window (.inr (.inr hhigh))
  · obtain ⟨hword, b, -, -, hle, -⟩ := h.freed_mem _ hfreed
    exact kfree_of_isFree hword (by omega)

end MicroK.Kheap

namespace MicroK.Kheap

open BlockTiling List

variable {c : Client} {bs : List Block}

theorem Laid.congr_headers {mem mem' : ℕ → ℕ} (hl : Laid mem bs)
    (heq : ∀ b ∈ bs, ∀ x, b.addr ≤ x → x < b.addr + headerSize → mem' x = mem x) :
    Laid mem' bs := by
  induction bs with
  | nil => trivial
  | cons b bs ih =>
    exact ⟨hl.1.congr (heq b mem_cons_self),
      ih hl.2 (fun d hd => heq d (mem_cons_of_mem b hd))⟩

/-- The state after a request that the block `b` serves. -/
theorem inv_takeBlock (h : Inv c bs) {n : BitVec 32} {b : Block}
    (hfind : bs.find? (fits (align4 n.toNat)) = some b) (hpos : align4 n.toNat ≠ 0) :
    Inv ⟨takeBlock c.heap b.addr (align4 n.toNat), (b.addr + headerSize, n.toNat) :: c.live, []⟩
      (allocate headerSize 4 (align4 n.toNat) bs) := by
  have hnowrap : n.toNat + 3 < 2 ^ 32 := by
    by_contra hwrap
    exact hpos (align4_of_wrap n.isLt (Nat.le_of_not_lt hwrap))
  have hnpos : 0 < n.toNat := by
    by_contra hz
    rw [align4_eq hnowrap] at hpos
    omega
  have hb := mem_of_find?_eq_some hfind
  have hbfree := (fits_iff.1 (find?_some hfind)).1
  have hphys := takeBlock_physStart c.heap b.addr (align4 n.toNat)
  have hdvd : 4 ∣ align4 n.toNat := by
    rw [align4_eq hnowrap]
    exact Nat.dvd_mul_left 4 _
  refine ⟨?_, ?_, separated_allocate h.separated, ?_, ?_, ?_, ?_, nofun, ?_⟩
  · rw [hphys]
    exact fills_takeBlock h.fills hfind
  · rw [hphys, takeBlock_start]
    exact h.start_eq
  · rw [hphys]
    exact h.aligned
  · exact granular_allocate (by decide) hdvd h.granular
  · intro q hq
    rcases mem_cons.1 hq with rfl | hq
    · obtain ⟨d, hd, hda, hdu, hds⟩ := mem_allocate_of_find headerSize 4 hfind
      exact ⟨hnpos, d, hd, hdu, by rw [hda], (le_align4 hnowrap).trans hds⟩
    · obtain ⟨hqpos, d, hd, hdu, hrest⟩ := h.live_mem q hq
      exact ⟨hqpos, d, mem_allocate_of_used hd hdu, hdu, hrest⟩
  · refine nodup_cons.2 ⟨fun hmem => ?_, h.live_nodup⟩
    obtain ⟨q, hq, hqe⟩ := mem_map.1 hmem
    obtain ⟨-, d, hd, hdu, hda, -⟩ := h.live_mem q hq
    have hh : headerSize = 16 := rfl
    have hdisj := h.fills.tiles.used_free_disjoint hd hb hdu hbfree
    omega
  · intro d hd hdu
    rcases mem_of_used_allocate hfind hd hdu with hd | hda
    · obtain ⟨q, hq, hqe⟩ := h.used_live d hd hdu
      exact ⟨q, .tail _ hq, hqe⟩
    · exact ⟨_, mem_cons_self, by rw [hda]⟩

theorem inv_kmalloc (h : Inv c bs) (n : BitVec 32) : ∃ bs', Inv (step c (.kmalloc n)) bs' := by
  rcases kmalloc_cases h n.toNat with ⟨he, -⟩ | ⟨b, hfind, hpos, he⟩
  · refine ⟨bs, ?_⟩
    simp only [step, he]
    exact { h with freed_mem := nofun }
  · refine ⟨allocate headerSize 4 (align4 n.toNat) bs, ?_⟩
    simp only [step, he]
    exact inv_takeBlock h hfind hpos

theorem isLive_iff {ptr : ℕ} : c.isLive ptr = true ↔ ∃ q ∈ c.live, q.1 = ptr := by
  simp [Client.isLive]

/-- The heaps differ only in the `n` bytes from `ptr` on. -/
structure WritesIn (ptr n : ℕ) (hp hp' : Heap) : Prop where
  physStart_eq : hp'.physStart = hp.physStart
  start_eq : hp'.start = hp.start
  mem_eq : ∀ x, x < ptr ∨ ptr + n ≤ x → hp'.mem x = hp.mem x

theorem WritesIn.refl (ptr n : ℕ) (hp : Heap) : WritesIn ptr n hp hp := ⟨rfl, rfl, fun _ _ => rfl⟩

theorem WritesIn.store {ptr n addr value : ℕ} {hp hp' : Heap} (hw : WritesIn ptr n hp hp')
    (hle : ptr ≤ addr) (hlt : addr < ptr + n) : WritesIn ptr n hp (hp'.store addr value) :=
  ⟨hw.physStart_eq, hw.start_eq, fun x hx =>
    (Function.update_of_ne (by omega) _ _).trans (hw.mem_eq x hx)⟩

variable (h : Inv c bs)
include h

/-- The word that marks a freed pointer is not among the words that `kfree` writes. -/
theorem Inv.freed_word_kept {ptr : ℕ} (hptr : ptr ∈ c.freed) {d : Block}
    (hd : d ∈ bs) : ptr - 4 ≠ d.addr ∧ ptr - 4 ≠ d.addr + 4 := by
  have hh : headerSize = 16 := rfl
  obtain ⟨-, f, hf, hff, hle, hend⟩ := h.freed_mem ptr hptr
  by_cases heq : d.addr = f.addr
  · omega
  · have := h.fills.tiles.disjoint hd hf heq
    omega

/-- `kfree` of a used block computes `release`. -/
theorem kfree_used {b : Block} (hb : b ∈ bs) (hbu : b.free = false) (hsize : 0 < b.size) :
    (kfree c.heap (b.addr + headerSize)).physStart = c.heap.physStart ∧
      (kfree c.heap (b.addr + headerSize)).start = c.heap.start ∧
      Fills (kfree c.heap (b.addr + headerSize)) c.heap.physStart (release headerSize b.addr bs) ∧
      ∀ x, (∀ d ∈ bs, x ≠ d.addr ∧ x ≠ d.addr + 4) →
        (kfree c.heap (b.addr + headerSize)).mem x = (c.heap.setIsFree b.addr 1).mem x := by
  have hfree : c.heap.isFree b.addr = 0 := by
    rw [(h.fills.headerAt hb).2.2, hbu]
    rfl
  have heq : kfree c.heap (b.addr + headerSize) =
      mergeBefore loopFuel (freedAt c.heap b.addr) b.addr (headAddr bs) := by
    rw [kfree, ptrToHeader_live h hb hsize]
    simp only [hfree, ne_eq, not_true_eq_false, if_false]
    rw [h.headAddr_eq, ← freedAt_start c.heap b.addr]
    rfl
  obtain ⟨hphys, hstart⟩ :=
    mergeBefore_consts loopFuel (freedAt c.heap b.addr) b.addr (headAddr bs)
  rw [freedAt_physStart] at hphys
  rw [freedAt_start] at hstart
  rw [heq]
  exact ⟨hphys, hstart, fills_release h.fills hb rfl h.length_lt h.length_lt.le⟩

theorem inv_kfree_live {ptr : BitVec 32} (hlive : c.isLive ptr.toNat = true) :
    ∃ bs', Inv (step c (.kfree ptr)) bs' := by
  have hh : headerSize = 16 := rfl
  obtain ⟨q, hq, hqe⟩ := isLive_iff.1 hlive
  obtain ⟨hqpos, b, hb, hbu, hba, hqs⟩ := h.live_mem q hq
  have hptr : ptr.toNat = b.addr + headerSize := by rw [← hqe, hba]
  obtain ⟨hphys, hstart, hfills, hframe⟩ := kfree_used h hb hbu (hqpos.trans_le hqs)
  obtain ⟨f, hf, hff, hfle, hfend⟩ :=
    coveredFree_release (h := headerSize) (by decide) h.fills.tiles hb (.inr rfl)
  refine ⟨release headerSize b.addr bs, ?_⟩
  rw [hptr] at hlive
  simp only [step, hptr, hlive, if_true]
  refine ⟨?_, ?_, separated_release h.separated, ?_, granular_release (by decide) h.granular,
    ?_, ?_, ?_, ?_⟩
  · rw [hphys]
    exact hfills
  · rw [hphys, hstart]
    exact h.start_eq
  · rw [hphys]
    exact h.aligned
  · intro r hr
    obtain ⟨hr, hrne⟩ := mem_filter.1 hr
    obtain ⟨hrpos, d, hd, hdu, hda, hrs⟩ := h.live_mem r hr
    have hdne : d.addr ≠ b.addr := by
      intro hdb
      rw [← hda, hdb] at hrne
      simp at hrne
    exact ⟨hrpos, d, mem_release_of_used hd hdu hdne, hdu, hda, hrs⟩
  · exact h.live_nodup.sublist (filter_sublist.map _)
  · intro r hr
    rcases mem_cons.1 hr with rfl | hr
    · refine ⟨?_, f, hf, hff, by omega, by omega⟩
      rw [hframe _ (fun d hd => ?_), setIsFree_mem, if_pos (by omega)]
      by_cases hdb : d.addr = b.addr
      · omega
      · have := h.fills.tiles.disjoint hd hb hdb
        omega
    · obtain ⟨hword, f, hf, hff, hfle, hfend⟩ := h.freed_mem r hr
      obtain ⟨g, hg, hgf, hgle, hgend⟩ :=
        coveredFree_release (h := headerSize) (p := b.addr) (by decide) h.fills.tiles hf
          (.inl hff)
      refine ⟨?_, g, hg, hgf, by omega, by omega⟩
      have hdisj := h.fills.tiles.used_free_disjoint hb hf hbu hff
      rw [hframe _ (fun d hd => h.freed_word_kept hr hd), setIsFree_mem, if_neg (by omega)]
      exact hword
  · intro d hd hdu
    have hdisj := hfills.tiles.used_free_disjoint hd hf hdu hff
    obtain ⟨r, hr, hre⟩ := h.used_live d (mem_of_used_release hd hdu) hdu
    exact ⟨r, mem_filter.2 ⟨hr, by simp only [← hre, bne_iff_ne]; omega⟩, hre⟩

theorem inv_kfree_other {ptr : BitVec 32} (hlegal : Legal c (.kfree ptr))
    (hlive : c.isLive ptr.toNat = false) : Inv (step c (.kfree ptr)) bs := by
  have hkept : c.live.filter (fun q => q.1 != ptr.toNat) = c.live := by
    refine filter_eq_self.2 (fun q hq => bne_iff_ne.2 (fun he => ?_))
    rw [isLive_iff.2 ⟨q, hq, he⟩] at hlive
    cases hlive
  simp only [step, hlive, kfree_other_eq h hlegal hlive, hkept]
  exact { h with }

/-- Writes into the payload of a live block keep the chain. -/
theorem Inv.writesIn {q : ℕ × ℕ} (hq : q ∈ c.live) {hp : Heap} (hw : WritesIn q.1 q.2 c.heap hp) :
    Inv { c with heap := hp } bs := by
  obtain ⟨-, b, hb, hbu, hba, hqs⟩ := h.live_mem q hq
  have hh : headerSize = 16 := rfl
  obtain ⟨mem, physStart, start⟩ := hp
  obtain ⟨rfl, rfl, hmem⟩ := hw
  have hlaid : Laid mem bs := by
    refine h.fills.laid.congr_headers (fun d hd x hx hx' => hmem x ?_)
    by_cases hdb : d.addr = b.addr
    · omega
    · have := h.fills.tiles.disjoint hd hb hdb
      omega
  refine ⟨⟨⟨h.fills.window.pos, h.fills.window.fits⟩, h.fills.lower, h.fills.tiles, hlaid⟩,
    h.start_eq, h.separated, h.aligned, h.granular, h.live_mem, h.live_nodup, ?_, h.used_live⟩
  intro r hr
  obtain ⟨hword, f, hf, hff, hfle, hfend⟩ := h.freed_mem r hr
  have hdisj := h.fills.tiles.used_free_disjoint hb hf hbu hff
  exact ⟨(hmem _ (by omega)).trans hword, f, hf, hff, hfle, hfend⟩

theorem inv_write {addr : ℕ} {value : BitVec 32}
    (hlegal : Legal c (.write addr value)) : Inv (step c (.write addr value)) bs := by
  obtain ⟨-, q, hq, hle, hlt⟩ := hlegal
  exact h.writesIn hq ((WritesIn.refl _ _ c.heap).store hle hlt)

omit h

theorem inv_step (h : ∃ bs, Inv c bs) {call : Call} (hlegal : Legal c call) :
    ∃ bs, Inv (step c call) bs := by
  obtain ⟨bs, h⟩ := h
  cases call with
  | kmalloc n => exact inv_kmalloc h n
  | kfree ptr =>
    cases hlive : c.isLive ptr.toNat with
    | true => exact inv_kfree_live h hlive
    | false => exact ⟨bs, inv_kfree_other h hlegal hlive⟩
  | write addr value => exact ⟨bs, inv_write h hlegal⟩

end MicroK.Kheap
