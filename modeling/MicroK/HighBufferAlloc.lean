import MicroK.HighPoolRuns
import MicroK.KheapRestore

/-!
# The pages of the buffers

`hbuf_alloc` takes the array of pages from the heap and the pages one by one from the high pool. The
pages lie above 4 GiB, and `hbuf_free` gives all of it back.
-/

namespace MicroK.Vmm

open Pmm HighPool Boot List Kheap Nat

/-- `hbuf_t`: the array of pages is at `array` in the heap, or nowhere when that is zero, and
`pages` is what `hbuf_alloc` has put there. -/
structure Hbuf where
  array : ℕ
  pages : List ℕ
  size : ℕ
deriving DecidableEq

structure HighMem where
  heap : Kheap.Heap
  pool : Pool
  bufs : List Hbuf

/-- The loop of `hbuf_alloc`, which gives back what it has when the pool runs dry. -/
def takePages : ℕ → Pool → List ℕ → Pool × Option (List ℕ)
  | 0, pool, pages => (pool, some pages)
  | n + 1, pool, pages =>
    let phys := allocHighBlock pool
    if phys.2 = 0 then (pages.foldl freeHighBlock phys.1, none)
    else takePages n phys.1 (pages ++ [phys.2])

def hbufAlloc (m : HighMem) (size : ℕ) : HighMem × Option Hbuf :=
  if size = 0 then (m, none)
  else
    let pageCount := u32 (size + pageSize - 1) / pageSize
    let array := Kheap.kmalloc m.heap (u32 (pageCount * 8))
    if array.2 = 0 then ({ m with heap := array.1 }, none)
    else
      match takePages pageCount m.pool [] with
      | (pool, none) => ({ m with heap := Kheap.kfree array.1 array.2, pool := pool }, none)
      | (pool, some pages) =>
        let buf : Hbuf := ⟨array.2, pages, size⟩
        (⟨array.1, pool, buf :: m.bufs⟩, some buf)

/-- `hbuf_free` of the live buffer number `i`. -/
def hbufFree (m : HighMem) (i : ℕ) : HighMem :=
  match m.bufs[i]? with
  | none => m
  | some buf =>
    ⟨Kheap.kfree m.heap buf.array, buf.pages.foldl freeHighBlock m.pool, m.bufs.eraseIdx i⟩

theorem takePages_length (n : ℕ) {pool pool' : Pool} {acc pages : List ℕ}
    (h : takePages n pool acc = (pool', some pages)) : pages.length = acc.length + n := by
  induction n generalizing pool acc with
  | zero =>
    obtain ⟨-, hpages⟩ := Prod.mk.inj h
    rw [← Option.some.inj hpages, add_zero]
  | succ n ih =>
    rw [takePages] at h
    split_ifs at h with hzero
    · cases (Prod.mk.inj h).2
    · rw [ih h, length_append, length_singleton, add_assoc, add_comm 1 n]

theorem kmalloc_zero (hp : Kheap.Heap) : (kmalloc hp 0).2 = 0 := by
  unfold kmalloc
  rw [if_pos (by decide)]

def pairedEntries : List MmapEntry := [⟨0, 1, 0x1000, 0, 1⟩, ⟨0, 2, 0x1000, 0, 1⟩]

def pairedMem : HighMem :=
  ⟨Kheap.init 0x400000 fun _ => 0,
    (initHigh (record (fun _ => 0) pairedEntries) ⟨fun _ => 0, 16, 0⟩).1, []⟩

def page (p : Pool) (b : ℕ) : ℕ := highBlockIndexToPhys p.regions b

/-- The page of the block is high, and its address leads back to the block. -/
def Named (p : Pool) (b : ℕ) : Prop :=
  2 ^ 32 ≤ page p b ∧ highPhysToBlockIndex p.regions (page p b) = some b

def nextBlock (p : Pool) : Option ℕ :=
  if !p.ready || p.bits.maxBlocks = 0 then none
  else allocScanWords p.bits (highBitmapWords p.bits.maxBlocks) 0

/-- The blocks that the next `n` allocations take. -/
def nextBlocks : ℕ → Pool → List ℕ
  | 0, _ => []
  | n + 1, p =>
    match nextBlock p with
    | none => []
    | some b => b :: nextBlocks n (allocHighBlock p).1

/-- The pool `q` is `p` after it has handed out the free blocks `bs`. -/
structure Took (p q : Pool) (bs : List ℕ) : Prop where
  regions : q.regions = p.regions
  ready : q.ready = p.ready
  maxBlocks : q.bits.maxBlocks = p.bits.maxBlocks
  usedBlocks : q.bits.usedBlocks = u32 (p.bits.usedBlocks + bs.length)
  isSet : ∀ c, q.bits.isSet c = (p.bits.isSet c || decide (c ∈ bs))
  nodup : bs.Nodup
  free : ∀ b ∈ bs, p.ready = true ∧ b < p.bits.maxBlocks ∧ p.bits.isSet b = false

variable {p q : Pool} {b n : ℕ} {bs cs : List ℕ}

theorem Took.refl (hused : p.bits.usedBlocks < 2 ^ 32) : Took p p [] :=
  ⟨rfl, rfl, rfl, (u32_of_lt hused).symm, fun _ => by simp, nodup_nil, nofun⟩

/-- Nothing but the bits, the counter and the bound of the pool changes. -/
theorem Took.eq (hused : p.bits.usedBlocks < 2 ^ 32) (h : Took p q []) : q = p := by
  have hbitmap : q.bits.bitmap = p.bits.bitmap := by
    funext i
    refine BitVec.eq_of_getLsbD_eq fun j hj => ?_
    have hbit := h.isSet (i * 32 + j)
    rw [State.isSet, State.isSet, show (i * 32 + j) / 32 = i by omega,
      show (i * 32 + j) % 32 = j by omega] at hbit
    simpa using hbit
  have hcount : q.bits.usedBlocks = p.bits.usedBlocks := h.usedBlocks.trans (u32_of_lt hused)
  obtain ⟨regions, ready, maxBlocks, -⟩ := h
  cases q with
  | mk qr qbits qready =>
    cases qbits
    cases hbitmap
    cases hcount
    cases maxBlocks
    cases regions
    cases ready
    rfl

theorem nextBlock_some (h : nextBlock p = some b) :
    p.ready = true ∧ b < p.bits.maxBlocks ∧ p.bits.isSet b = false ∧
      allocHighBlock p = ({ p with bits := setBlock p.bits b }, page p b) := by
  unfold nextBlock at h
  split_ifs at h with hoff
  obtain ⟨hb, hclear⟩ := allocScanWords_spec _ _ b h
  refine ⟨by cases hr : p.ready <;> simp_all, hb, hclear, ?_⟩
  rw [allocHighBlock, if_neg hoff, h, ← takeBlock_eq hb hclear]
  rfl

theorem allocHighBlock_none (h : nextBlock p = none) : allocHighBlock p = (p, 0) := by
  unfold nextBlock at h
  rw [allocHighBlock]
  split_ifs at h ⊢
  · rfl
  · rw [h]

theorem Took.alloc (h : Took p q bs) (hb : nextBlock q = some b) :
    Took p (allocHighBlock q).1 (bs ++ [b]) ∧ (allocHighBlock q).2 = page p b := by
  obtain ⟨hready, hlt, hclear, halloc⟩ := nextBlock_some hb
  have hbit : q.bits.bitClear b = true := by rw [bitClear_eq, hclear, Bool.not_false]
  have hold : p.bits.isSet b = false ∧ b ∉ bs := by
    have hor := h.isSet b
    rw [hclear, eq_comm, Bool.or_eq_false_iff] at hor
    exact ⟨hor.1, of_decide_eq_false hor.2⟩
  rw [halloc]
  refine ⟨⟨h.regions, h.ready, (setBlock_maxBlocks _ _).trans h.maxBlocks, ?_, fun c => ?_, ?_, ?_⟩,
    by rw [page, page, h.regions]⟩
  · rw [setBlock, if_neg (not_le.mpr hlt), if_pos hbit, length_append]
    rw [h.usedBlocks]
    unfold u32
    simp [add_assoc]
  · simp only [isSet_setBlock, h.isSet, hlt, and_true, mem_append, mem_singleton,
      Bool.decide_or, Bool.or_assoc]
  · refine nodup_append.mpr ⟨h.nodup, nodup_singleton b, fun c hc d hd heq => ?_⟩
    exact hold.2 (mem_singleton.mp hd ▸ heq ▸ hc)
  · intro c hc
    rcases mem_append.mp hc with hc | hc
    · exact h.free c hc
    · exact mem_singleton.mp hc ▸ ⟨h.ready ▸ hready, h.maxBlocks ▸ hlt, hold.1⟩

theorem Took.freeFirst (h : Took p q (b :: bs)) (hn : Named p b) :
    Took p (freeHighBlock q (page p b)) bs := by
  obtain ⟨hready, hlt, hclear⟩ := h.free b mem_cons_self
  obtain ⟨hnew, hnodup⟩ := nodup_cons.mp h.nodup
  have hset : q.bits.bitClear b = false := by
    rw [bitClear_eq, h.isSet, decide_eq_true mem_cons_self, Bool.or_true, Bool.not_true]
  have hqlt : b < q.bits.maxBlocks := h.maxBlocks.symm ▸ hlt
  have hfree : freeHighBlock q (page p b) = { q with bits := unsetBlock q.bits b } := by
    rw [freeHighBlock, h.ready, hready, if_neg (by decide), h.regions, hn.2]
    simp only [releaseBlock_eq hqlt]
  rw [hfree]
  refine ⟨h.regions, h.ready, (unsetBlock_maxBlocks _ _).trans h.maxBlocks, ?_, fun c => ?_, hnodup,
    fun c hc => h.free c (.tail _ hc)⟩
  · rw [unsetBlock, if_neg (not_le.mpr hqlt), if_neg (by rw [hset]; decide)]
    change u32 (q.bits.usedBlocks + (2 ^ 32 - 1)) = _
    rw [h.usedBlocks, length_cons]
    unfold u32
    omega
  · rw [isSet_unsetBlock, h.isSet]
    by_cases hc : c = b
    · simp [hc, hqlt, hclear, hnew]
    · simp [hc]

/-- Freeing the pages of the first blocks leaves the later ones taken. -/
theorem Took.freePages (h : Took p q (bs ++ cs)) (hn : ∀ b ∈ bs, Named p b) :
    Took p ((bs.map (page p)).foldl freeHighBlock q) cs := by
  induction bs generalizing q with
  | nil => exact h
  | cons b bs ih =>
    exact ih (Took.freeFirst h (hn b mem_cons_self)) fun c hc => hn c (.tail _ hc)

theorem Took.freeAll (hused : p.bits.usedBlocks < 2 ^ 32) (h : Took p q bs)
    (hn : ∀ b ∈ bs, Named p b) : (bs.map (page p)).foldl freeHighBlock q = p :=
  Took.eq hused (@Took.freePages p q bs [] (by rwa [append_nil]) hn)

/-- A run of `hbuf_alloc` over the pool `p` that can be undone. -/
def Undone (p : Pool) : Pool × Option (List ℕ) → Prop
  | (q, none) => q = p
  | (q, some pages) =>
    pages.Nodup ∧ (∀ a ∈ pages, 2 ^ 32 ≤ a) ∧ pages.foldl freeHighBlock q = p

theorem undone_takePages (hused : p.bits.usedBlocks < 2 ^ 32) (h : Took p q bs)
    (hold : ∀ b ∈ bs, Named p b) (hn : ∀ b ∈ nextBlocks n q, Named p b) :
    Undone p (takePages n q (bs.map (page p))) := by
  induction n generalizing q bs with
  | zero =>
    refine ⟨h.nodup.map_on fun b hb c hc heq => ?_, fun a ha => ?_, h.freeAll hused hold⟩
    · exact Option.some.inj ((hold b hb).2.symm.trans (heq ▸ (hold c hc).2))
    · obtain ⟨b, hb, rfl⟩ := mem_map.mp ha
      exact (hold b hb).1
  | succ n ih =>
    rw [takePages]
    rw [nextBlocks] at hn
    cases hnext : nextBlock q with
    | none =>
      rw [allocHighBlock_none hnext]
      exact h.freeAll hused hold
    | some b =>
      rw [hnext] at hn
      obtain ⟨htook, hpage⟩ := h.alloc hnext
      have hb : Named p b := hn b mem_cons_self
      have hne : (allocHighBlock q).2 ≠ 0 := hpage ▸ (lt_of_lt_of_le (by norm_num) hb.1).ne'
      have hrest := ih htook (forall_mem_append.mpr ⟨hold, forall_mem_singleton.mpr hb⟩)
        fun c hc => hn c (.tail _ hc)
      rw [map_append, map_singleton, ← hpage] at hrest
      exact (if_neg hne).symm ▸ hrest

/-- A block that was handed out and is free again was found under the address. -/
theorem named_of_freeHighBlock (h : Took p q [b]) {a : ℕ} (hfree : freeHighBlock q a = p) :
    highPhysToBlockIndex p.regions a = some b := by
  obtain ⟨hready, -, hclear⟩ := h.free b mem_cons_self
  have hset : q.bits.isSet b = true := by simp [h.isSet]
  rw [freeHighBlock, h.ready, hready, if_neg (by decide), h.regions] at hfree
  cases hfind : highPhysToBlockIndex p.regions a with
  | none =>
    rw [hfind] at hfree
    rw [show q = p from hfree, hclear] at hset
    cases hset
  | some c =>
    rw [hfind] at hfree
    have hrelease : (releaseBlock q.bits c).isSet b = false := by rw [← hclear, ← hfree]
    have hbound : releaseBlock { q.bits with maxBlocks := c + 1 } c =
        { releaseBlock q.bits c with maxBlocks := c + 1 } := by
      unfold releaseBlock State.bitClear
      split_ifs <;> rfl
    have hbit := isSet_unsetBlock { q.bits with maxBlocks := c + 1 } c b
    rw [← releaseBlock_eq (lt_succ_self c), hbound] at hbit
    change (releaseBlock q.bits c).isSet b = (q.bits.isSet b && _) at hbit
    rw [hrelease, hset] at hbit
    have hbc : b = c := by simpa using hbit
    rw [hbc]

theorem named_of_undone {k : ℕ} (hall : ∀ j, 0 < j → j ≤ k → Undone p (takePages j p []))
    (h : Took p q bs) (hold : ∀ b ∈ bs, Named p b)
    (hreplay : ∀ m, takePages (bs.length + m) p [] = takePages m q (bs.map (page p)))
    (hk : bs.length + n ≤ k) : ∀ b ∈ nextBlocks n q, Named p b := by
  induction n generalizing q bs with
  | zero => exact fun b hb => absurd hb not_mem_nil
  | succ n ih =>
    rw [nextBlocks]
    cases hnext : nextBlock q with
    | none => exact fun b hb => absurd hb not_mem_nil
    | some b =>
      obtain ⟨htook, hpage⟩ := h.alloc hnext
      have hstep : ∀ m, takePages (bs.length + (m + 1)) p [] =
          if page p b = 0 then ((bs.map (page p)).foldl freeHighBlock (allocHighBlock q).1, none)
          else takePages m (allocHighBlock q).1 ((bs ++ [b]).map (page p)) := by
        intro m
        rw [hreplay, takePages, hpage, map_append, map_singleton]
      have hfreed : Took p ((bs.map (page p)).foldl freeHighBlock (allocHighBlock q).1) [b] :=
        htook.freePages hold
      have hone := hall (bs.length + 1) (succ_pos _) (by omega)
      rw [hstep 0] at hone
      have hnamed : page p b ≠ 0 ∧ Named p b := by
        split_ifs at hone with hzero
        · have hset := hfreed.isSet b
          rw [show _ = p from hone, (hfreed.free b mem_cons_self).2.2] at hset
          simp at hset
        · obtain ⟨-, hhigh, hfree⟩ := hone
          rw [map_append, foldl_append] at hfree
          refine ⟨hzero, hhigh _ ?_, named_of_freeHighBlock hfreed hfree⟩
          exact mem_map_of_mem (mem_append_right _ mem_cons_self)
      intro c hc
      rcases mem_cons.mp hc with rfl | hc
      · exact hnamed.2
      · refine ih htook (forall_mem_append.mpr ⟨hold, forall_mem_singleton.mpr hnamed.2⟩)
          (fun m => ?_) ?_ c hc
        · rw [length_append, length_singleton, add_assoc, add_comm 1 m, hstep,
            if_neg hnamed.1]
        · rw [length_append, length_singleton]
          omega

theorem nextBlocks_subset {k : ℕ} (h : k ≤ n) : nextBlocks k p ⊆ nextBlocks n p := by
  induction k generalizing n p with
  | zero => exact nil_subset _
  | succ k ih =>
    obtain ⟨n, rfl⟩ := Nat.exists_eq_add_of_le' (Nat.succ_pos k |>.trans_le h)
    rw [nextBlocks, nextBlocks]
    cases nextBlock p with
    | none => exact List.Subset.refl _
    | some b => exact cons_subset_cons b (ih (Nat.le_of_succ_le_succ h))

/-- Up to `n` pages can be taken and given back exactly when the blocks behind them are named. -/
theorem undone_iff (hused : p.bits.usedBlocks < 2 ^ 32) (n : ℕ) :
    (∀ j, 0 < j → j ≤ n → Undone p (takePages j p [])) ↔ ∀ b ∈ nextBlocks n p, Named p b := by
  constructor
  · intro hall
    exact named_of_undone hall (.refl hused) nofun
      (fun m => by rw [length_nil, zero_add]; rfl) (by rw [length_nil, zero_add])
  · intro hn j _ hj
    exact undone_takePages hused (.refl hused) nofun fun b hb => hn b (nextBlocks_subset hj hb)

/-- The most pages a buffer can have. -/
def maxPages : ℕ := 2 ^ 20 - 1

/-- Either the buffer covers its size with different high pages and `hbuf_free` restores the pool
and the chain of the heap, or the call fails and has left them as they were. -/
def Exact (m : HighMem) (size : ℕ) : Prop :=
  match hbufAlloc m size with
  | (m', none) => m'.pool = m.pool ∧ Kheap.blocks m'.heap = Kheap.blocks m.heap
  | (m', some buf) =>
    size ≤ buf.pages.length * pageSize ∧ buf.pages.Nodup ∧ (∀ a ∈ buf.pages, 2 ^ 32 ≤ a) ∧
      (hbufFree m' 0).pool = m.pool ∧ Kheap.blocks (hbufFree m' 0).heap = Kheap.blocks m.heap

variable {m : HighMem}

theorem exact_of_undone (size : BitVec 32)
    (hheap : ∀ n : BitVec 32, ((kmalloc m.heap n.toNat).2 = 0 →
        (kmalloc m.heap n.toNat).1 = m.heap) ∧
      blocks (kfree (kmalloc m.heap n.toNat).1 (kmalloc m.heap n.toNat).2) =
        blocks m.heap)
    (hpool : ∀ j, 0 < j → j ≤ maxPages → Undone m.pool (takePages j m.pool [])) :
    Exact m size.toNat := by
  unfold Exact hbufAlloc
  generalize hcount : u32 (size.toNat + pageSize - 1) / pageSize = count
  obtain ⟨hnull, hblocks⟩ := hheap (BitVec.ofNat 32 (count * 8))
  dsimp only
  split_ifs with hsize harray
  · exact ⟨rfl, rfl⟩
  · exact ⟨rfl, congrArg blocks (hnull harray)⟩
  · have hpos : 0 < count := by
      refine pos_of_ne_zero fun hzero => harray ?_
      rw [hzero]
      exact kmalloc_zero m.heap
    have hundone := hpool count hpos (by unfold maxPages; unfold u32 pageSize at hcount; omega)
    cases htake : takePages count m.pool [] with
    | mk q found =>
      rw [htake] at hundone
      cases found with
      | none => exact ⟨hundone, hblocks⟩
      | some pages =>
        refine ⟨?_, hundone.1, hundone.2.1, hundone.2.2, hblocks⟩
        rw [takePages_length _ htake, length_nil]
        unfold u32 pageSize at *
        omega

theorem undone_of_exact {j : ℕ} (hj : 0 < j) (hmax : j ≤ maxPages)
    (hroom : (kmalloc m.heap (j * 8)).2 ≠ 0) (h : Exact m (j * pageSize)) :
    Undone m.pool (takePages j m.pool []) := by
  unfold maxPages at hmax
  have hcount : u32 (j * pageSize + pageSize - 1) / pageSize = j := by
    unfold u32 pageSize
    omega
  have hsize : ¬ j * pageSize = 0 := (mul_pos hj (by decide)).ne'
  have harray : ¬ (kmalloc m.heap (u32 (j * 8))).2 = 0 := by
    rwa [u32_of_lt (by omega)]
  unfold Exact hbufAlloc at h
  rw [hcount, if_neg hsize, if_neg harray] at h
  cases htake : takePages j m.pool [] with
  | mk q found =>
    rw [htake] at h
    cases found with
    | none => exact h.1
    | some pages => exact ⟨h.2.1, h.2.2.1, h.2.2.2.1⟩

theorem kmalloc_init_ne_zero {j : ℕ} (hj : 0 < j) (hmax : j ≤ maxPages) :
    (kmalloc (init 0 fun _ => 0) (j * 8)).2 ≠ 0 := by
  unfold maxPages at hmax
  obtain ⟨bs, hinv⟩ := @inv_init 0 (by decide) fun _ => 0
  have hone := hinv.blocks_eq.symm.trans (hinv.blocks_of_no_live rfl)
  have halign : align4 (j * 8) = j * 8 := by
    rw [align4_eq (by omega)]
    omega
  rcases kmalloc_cases hinv (j * 8) with ⟨-, hzero | hnone⟩ | ⟨b, -, -, he⟩
  · omega
  · rw [hone, halign, find?_eq_none] at hnone
    refine absurd ((BlockTiling.fits_iff ..).mpr ⟨rfl, ?_⟩) (hnone _ mem_cons_self)
    simp only [heapSize, headerSize]
    omega
  · exact (congrArg Prod.snd he).trans_ne (succ_ne_zero _)

/-- Over every run of the heap and for every size, allocation and release of a buffer are exact if
and only if each block that the pool hands out is found again under the address of its page. -/
theorem hbufAlloc_exact_iff (pool : Pool) (hused : pool.bits.usedBlocks < 2 ^ 32) :
    (∀ minStart mem calls,
      Runs.Admissible Kheap.step Kheap.Legal (Kheap.Client.init minStart mem) calls →
      ∀ bufs, ∀ size : BitVec 32, Exact
        ⟨(Runs.run Kheap.step (Kheap.Client.init minStart mem) calls).heap, pool, bufs⟩
        size.toNat) ↔
      ∀ b ∈ nextBlocks maxPages pool, Named pool b := by
  rw [← undone_iff hused]
  constructor
  · intro h j hj hmax
    have hsize : (BitVec.ofNat 32 (j * pageSize)).toNat = j * pageSize := by
      rw [BitVec.toNat_ofNat]
      unfold maxPages at hmax
      unfold pageSize
      omega
    have hexact := h 0 (fun _ => 0) [] trivial [] (BitVec.ofNat 32 (j * pageSize))
    rw [hsize] at hexact
    exact undone_of_exact hj hmax (kmalloc_init_ne_zero hj hmax) hexact
  · intro h minStart mem calls hcalls bufs size
    exact exact_of_undone size (kmalloc_restores hcalls) h

theorem hbufAlloc_exact_iff_paired :
    (∀ minStart mem calls,
      Runs.Admissible Kheap.step Kheap.Legal (Kheap.Client.init minStart mem) calls →
      ∀ bufs, ∀ size : BitVec 32, Exact
        ⟨(Runs.run Kheap.step (Kheap.Client.init minStart mem) calls).heap, pairedMem.pool, bufs⟩
        size.toNat) ↔
      ∀ b ∈ nextBlocks maxPages pairedMem.pool, Named pairedMem.pool b :=
  hbufAlloc_exact_iff pairedMem.pool (by decide +kernel)

/-- A map that gives the same page twice. -/
def overlapMem : HighMem :=
  ⟨Kheap.init 0x400000 fun _ => 0, (initHigh (record (fun _ => 0)
    [⟨0, 1, 0x1000, 0, 1⟩, ⟨0, 1, 0x1000, 0, 1⟩]) ⟨fun _ => 0, 16, 0⟩).1, []⟩

/-- A buffer gets one page twice, and after `hbuf_free` a block is still in use. -/
theorem overlap_not_restored :
    (hbufAlloc overlapMem 8192).2 = some ⟨0xC00010, [0x100000000, 0x100000000], 8192⟩ ∧
      overlapMem.pool.bits.usedBlocks = 0 ∧
      (hbufFree (hbufAlloc overlapMem 8192).1 0).pool.bits.usedBlocks = 1 := by
  decide +kernel

end MicroK.Vmm
