import MicroK.MachineWords

/-!
# Page allocation, freeing and reservation

The block allocator takes the first clear bit, word by word. The region allocator scans block by
block from block 1, keeping the start and length of the current run of clear bits, and takes the
first run that is long enough. Freeing and reserving work on page-rounded address ranges.

Each loop has one lemma about the bits it reads or writes; the operations are then characterized
by the range of blocks that they set or clear.
-/

namespace MicroK.Pmm

open Finset Nat

def pageSize : ℕ := 4096

structure State where
  bitmap : ℕ → BitVec 32
  maxBlocks : ℕ
  usedBlocks : ℕ

def alignDown (value : ℕ) : ℕ := value &&& (2 ^ 32 - pageSize)

/-- Saturates at `0xFFFFFFFF` instead of wrapping. -/
def alignUp (value : ℕ) : ℕ :=
  if value > 0xFFFFFFFF - (pageSize - 1) then 0xFFFFFFFF
  else (value + pageSize - 1) &&& (2 ^ 32 - pageSize)

def bitmapWords (maxBlocks : ℕ) : ℕ := (maxBlocks + 31) / 32

variable (s : State)

def getBitmapSize : ℕ := bitmapWords s.maxBlocks * 4

/-- Every page starts reserved; words past the bitmap keep their old contents. -/
def init (memSize : BitVec 32) (mem : ℕ → BitVec 32) : State where
  bitmap i := if i < bitmapWords (memSize.toNat / pageSize) * 4 / 4 then 0xFFFFFFFF#32 else mem i
  maxBlocks := memSize.toNat / pageSize
  usedBlocks := memSize.toNat / pageSize

variable (bit : ℕ)

def State.bitClear : Bool :=
  s.bitmap (bit / 32) &&& bitMask (bit % 32) == 0#32

def setBlock : State :=
  if bit ≥ s.maxBlocks then s
  else if s.bitClear bit then
    { s with
      bitmap := Function.update s.bitmap (bit / 32) (s.bitmap (bit / 32) ||| bitMask (bit % 32))
      usedBlocks := u32 (s.usedBlocks + 1) }
  else s

def unsetBlock : State :=
  if bit ≥ s.maxBlocks then s
  else if s.bitClear bit then s
  else
    { s with
      bitmap := Function.update s.bitmap (bit / 32) (s.bitmap (bit / 32) &&& ~~~ bitMask (bit % 32))
      usedBlocks := u32 (s.usedBlocks + (2 ^ 32 - 1)) }

def State.isSet : Bool := (s.bitmap (bit / 32)).getLsbD (bit % 32)

def usedSet : Finset ℕ := (Finset.range s.maxBlocks).filter (fun b => s.isSet b)

/-- The counter counts the set bits of the managed range, which fits a 32-bit address space. -/
structure WellCounted (s : State) : Prop where
  used_eq : s.usedBlocks = (usedSet s).card
  max_lt : s.maxBlocks < 2 ^ 20

theorem bitClear_eq : s.bitClear bit = !s.isSet bit := by
  have h := and_bitMask_eq_zero_iff (s.bitmap (bit / 32)) (mod_lt bit (by norm_num : 0 < 32))
  unfold State.bitClear State.isSet
  cases hb : (s.bitmap (bit / 32)).getLsbD (bit % 32) <;> simp [beq_iff_eq, h, hb]

@[simp] theorem setBlock_maxBlocks (b : ℕ) : (setBlock s b).maxBlocks = s.maxBlocks := by
  unfold setBlock
  split_ifs <;> rfl

@[simp] theorem unsetBlock_maxBlocks (b : ℕ) : (unsetBlock s b).maxBlocks = s.maxBlocks := by
  unfold unsetBlock
  split_ifs <;> rfl

theorem isSet_update {b : ℕ} {w : BitVec 32} {used : ℕ}
    (hw : ∀ k < 32, k ≠ b % 32 → w.getLsbD k = (s.bitmap (b / 32)).getLsbD k) (c : ℕ) :
    State.isSet { s with bitmap := Function.update s.bitmap (b / 32) w, usedBlocks := used } c =
      if c = b then w.getLsbD (b % 32) else s.isSet c := by
  unfold State.isSet
  dsimp only
  split_ifs with hcb
  · rw [hcb, Function.update_self]
  · by_cases hdiv : c / 32 = b / 32
    · rw [hdiv, Function.update_self]
      exact hw _ (mod_lt c (by norm_num)) (by omega)
    · rw [Function.update_of_ne hdiv]

theorem isSet_setBlock (b c : ℕ) :
    (setBlock s b).isSet c = (s.isSet c || decide (c = b ∧ b < s.maxBlocks)) := by
  have hbit := mod_lt b (by norm_num : 0 < 32)
  unfold setBlock
  split_ifs with hb hc
  · simp [not_lt.mpr hb]
  · rw [isSet_update s (fun k _ hk => by simp [getLsbD_or_bitMask _ hbit, hk]),
      getLsbD_or_bitMask _ hbit]
    by_cases hcb : c = b <;> simp [hcb, Nat.lt_of_not_le hb]
  · rw [bitClear_eq] at hc
    by_cases hcb : c = b
    · simpa [hcb, Nat.lt_of_not_le hb] using hc
    · simp [hcb]

theorem isSet_unsetBlock (b c : ℕ) :
    (unsetBlock s b).isSet c = (s.isSet c && !decide (c = b ∧ b < s.maxBlocks)) := by
  have hbit := mod_lt b (by norm_num : 0 < 32)
  unfold unsetBlock
  split_ifs with hb hc
  · simp [not_lt.mpr hb]
  · rw [bitClear_eq] at hc
    by_cases hcb : c = b
    · simpa [hcb, Nat.lt_of_not_le hb] using hc
    · simp [hcb]
  · rw [isSet_update s (fun k hk hne => by simp [getLsbD_and_not_bitMask _ hbit hk, hne]),
      getLsbD_and_not_bitMask _ hbit hbit]
    by_cases hcb : c = b <;> simp [hcb, Nat.lt_of_not_le hb]

theorem mem_usedSet (b : ℕ) : b ∈ usedSet s ↔ b < s.maxBlocks ∧ s.isSet b = true := by
  simp [usedSet]

theorem usedSet_card_le : (usedSet s).card ≤ s.maxBlocks := by
  have h := card_filter_le (Finset.range s.maxBlocks) (fun b => s.isSet b = true)
  rwa [card_range] at h

variable {s : State} {b : ℕ}

theorem usedSet_setBlock (hb : b < s.maxBlocks) :
    usedSet (setBlock s b) = insert b (usedSet s) := by
  ext c
  rw [mem_usedSet, mem_insert, mem_usedSet, setBlock_maxBlocks, isSet_setBlock]
  by_cases hcb : c = b
  · subst hcb
    simp [hb]
  · simp [hcb]

theorem usedSet_unsetBlock (hb : b < s.maxBlocks) :
    usedSet (unsetBlock s b) = (usedSet s).erase b := by
  ext c
  rw [mem_usedSet, mem_erase, mem_usedSet, unsetBlock_maxBlocks, isSet_unsetBlock]
  by_cases hcb : c = b
  · subst hcb
    simp [hb]
  · simp [hcb]

theorem bitClear_iff (hb : b < s.maxBlocks) : s.bitClear b = true ↔ b ∉ usedSet s := by
  rw [bitClear_eq, mem_usedSet]
  simp [hb]

theorem used_eq_setBlock (hmax : s.maxBlocks < 2 ^ 32) (h : s.usedBlocks = (usedSet s).card)
    (b : ℕ) : (setBlock s b).usedBlocks = (usedSet (setBlock s b)).card := by
  by_cases hb : b < s.maxBlocks
  · have hle := usedSet_card_le (setBlock s b)
    rw [setBlock_maxBlocks] at hle
    rw [usedSet_setBlock hb] at hle ⊢
    rw [setBlock, if_neg (not_le.mpr hb)]
    split_ifs with hc
    · rw [card_insert_of_notMem ((bitClear_iff hb).mp hc), ← h] at hle ⊢
      exact u32_of_lt (by omega)
    · rw [insert_eq_of_mem (not_not.mp (mt (bitClear_iff hb).mpr hc)), h]
  · rw [setBlock, if_pos (not_lt.mp hb), h]

theorem used_eq_unsetBlock (hmax : s.maxBlocks < 2 ^ 32) (h : s.usedBlocks = (usedSet s).card)
    (b : ℕ) : (unsetBlock s b).usedBlocks = (usedSet (unsetBlock s b)).card := by
  by_cases hb : b < s.maxBlocks
  · have hle := usedSet_card_le s
    rw [usedSet_unsetBlock hb, unsetBlock, if_neg (not_le.mpr hb)]
    split_ifs with hc
    · rw [erase_eq_of_notMem ((bitClear_iff hb).mp hc), h]
    · have hmem : b ∈ usedSet s := not_not.mp (mt (bitClear_iff hb).mpr hc)
      have hpos : 0 < (usedSet s).card := card_pos.mpr ⟨b, hmem⟩
      rw [card_erase_of_mem hmem]
      change u32 (s.usedBlocks + (2 ^ 32 - 1)) = _
      unfold u32
      omega
  · rw [unsetBlock, if_pos (not_lt.mp hb), h]

theorem eq_of_isSet {s t : State} (hs : WellCounted s) (ht : WellCounted t)
    (hmax : s.maxBlocks = t.maxBlocks) (hbits : ∀ b, s.isSet b = t.isSet b) : s = t := by
  have hbitmap : s.bitmap = t.bitmap := by
    ext i j hj
    have hbit := hbits (i * 32 + j)
    have hdiv : (i * 32 + j) / 32 = i := by omega
    have hmod : (i * 32 + j) % 32 = j := by omega
    rwa [State.isSet, State.isSet, hdiv, hmod] at hbit
  have hused : s.usedBlocks = t.usedBlocks := by
    simp only [hs.used_eq, ht.used_eq, usedSet, hmax, hbits]
  cases s
  congr

theorem wellCounted_setBlock (h : WellCounted s) (b : ℕ) : WellCounted (setBlock s b) :=
  ⟨used_eq_setBlock (h.max_lt.trans (by norm_num)) h.used_eq b, by simpa using h.max_lt⟩

theorem wellCounted_unsetBlock (h : WellCounted s) (b : ℕ) : WellCounted (unsetBlock s b) :=
  ⟨used_eq_unsetBlock (h.max_lt.trans (by norm_num)) h.used_eq b, by simpa using h.max_lt⟩

theorem isSet_init (memSize : BitVec 32) (mem : ℕ → BitVec 32)
    (hb : b < (init memSize mem).maxBlocks) : (init memSize mem).isSet b = true := by
  change b < memSize.toNat / pageSize at hb
  have hw : b / 32 < bitmapWords (memSize.toNat / pageSize) * 4 / 4 := by
    unfold bitmapWords
    omega
  have hall : ∀ k < 32, (0xFFFFFFFF#32).getLsbD k = true := by decide
  simp only [State.isSet, init, if_pos hw]
  exact hall _ (mod_lt b (by norm_num))

theorem wellCounted_init (memSize : BitVec 32) (mem : ℕ → BitVec 32) :
    WellCounted (init memSize mem) := by
  constructor
  · have hall : usedSet (init memSize mem) = Finset.range (init memSize mem).maxBlocks := by
      apply filter_true_of_mem
      intro b hb
      exact isSet_init memSize mem (mem_range.mp hb)
    rw [hall, card_range]
    rfl
  · change memSize.toNat / pageSize < 2 ^ 20
    unfold pageSize
    omega

/-- The inner loop over the bits `j` of word `i`, leaving it at the first block out of range. -/
def allocScanBits (s : State) (i : ℕ) : ℕ → ℕ → Option ℕ
  | 0, _ => none
  | fuel + 1, j =>
    if i * 32 + j ≥ s.maxBlocks then none
    else if s.bitmap i &&& bitMask j == 0#32 then some (i * 32 + j)
    else allocScanBits s i fuel (j + 1)

def allocScanWords (s : State) : ℕ → ℕ → Option ℕ
  | 0, _ => none
  | fuel + 1, i =>
    if s.bitmap i ≠ 0xFFFFFFFF#32 then
      match allocScanBits s i 32 0 with
      | some block => some block
      | none => allocScanWords s fuel (i + 1)
    else allocScanWords s fuel (i + 1)

def allocBlock (s : State) : State × ℕ :=
  match allocScanWords s (bitmapWords s.maxBlocks) 0 with
  | some block => (setBlock s block, u32 (block * pageSize))
  | none => (s, 0)

def runOrigin (block runStart runLen : ℕ) : ℕ := if runLen = 0 then block else runStart

/-- The run search of the region allocator, over the blocks that remain below `maxBlocks`. -/
def regionScan (s : State) (needed : ℕ) : ℕ → ℕ → ℕ → ℕ → Option ℕ
  | 0, _, _, _ => none
  | fuel + 1, block, runStart, runLen =>
    if s.bitClear block then
      if runLen + 1 ≥ needed then some (runOrigin block runStart runLen)
      else regionScan s needed fuel (block + 1) (runOrigin block runStart runLen) (runLen + 1)
    else regionScan s needed fuel (block + 1) runStart 0

def setBlocks (s : State) (start : ℕ) : ℕ → State
  | 0 => s
  | n + 1 => setBlock (setBlocks s start n) (start + n)

def unsetBlocks (s : State) (start : ℕ) : ℕ → State
  | 0 => s
  | n + 1 => unsetBlock (unsetBlocks s start n) (start + n)

def allocRegion (s : State) (size : BitVec 32) : State × ℕ :=
  if size = 0 then (s, 0)
  else
    let needed := alignUp size.toNat / pageSize
    match regionScan s needed (s.maxBlocks - 1) 1 0 0 with
    | some start => (setBlocks s start needed, u32 (start * pageSize))
    | none => (s, 0)

def freeBlock (s : State) (ptr : BitVec 32) : State := unsetBlock s (ptr.toNat / pageSize)

def regionStart (base : BitVec 32) : ℕ := alignDown base.toNat / pageSize

def regionEnd (base size : BitVec 32) : ℕ := alignUp (u32 (base.toNat + size.toNat)) / pageSize

def reserveRegion (s : State) (base size : BitVec 32) : State :=
  setBlocks s (regionStart base) (regionEnd base size - regionStart base)

def freeRegion (s : State) (base size : BitVec 32) : State :=
  unsetBlocks s (regionStart base) (regionEnd base size - regionStart base)

theorem alignUp_div_pageSize {n : ℕ} (hn : n ≤ 0xFFFFF000) :
    alignUp n / pageSize = (n + (pageSize - 1)) / pageSize := by
  have hmask := and_high_mask (n := n + pageSize - 1) (k := 12)
    (by unfold pageSize; omega) (by norm_num)
  unfold alignUp
  rw [if_neg (by unfold pageSize; omega)]
  unfold pageSize at hmask ⊢
  norm_num at hmask ⊢
  omega

theorem alignUp_div_pageSize_of_gt {n : ℕ} (hn : 0xFFFFF000 < n) :
    alignUp n / pageSize = 2 ^ 20 - 1 := by
  unfold alignUp
  rw [if_pos (by unfold pageSize; omega)]
  rfl

@[simp] theorem setBlocks_maxBlocks (s : State) (start n : ℕ) :
    (setBlocks s start n).maxBlocks = s.maxBlocks := by
  induction n with
  | zero => rfl
  | succ n ih => rw [setBlocks, setBlock_maxBlocks, ih]

@[simp] theorem unsetBlocks_maxBlocks (s : State) (start n : ℕ) :
    (unsetBlocks s start n).maxBlocks = s.maxBlocks := by
  induction n with
  | zero => rfl
  | succ n ih => rw [unsetBlocks, unsetBlock_maxBlocks, ih]

theorem isSet_setBlocks (s : State) (start n c : ℕ) : (setBlocks s start n).isSet c =
      (s.isSet c || decide (start ≤ c ∧ c < start + n ∧ c < s.maxBlocks)) := by
  induction n with
  | zero =>
    have hno : ¬ (start ≤ c ∧ c < start + 0 ∧ c < s.maxBlocks) := by omega
    rw [setBlocks, decide_eq_false hno, Bool.or_false]
  | succ n ih =>
    rw [setBlocks, isSet_setBlock, ih, setBlocks_maxBlocks, Bool.or_assoc, ← Bool.decide_or]
    congr 2
    apply propext
    omega

theorem isSet_unsetBlocks (s : State) (start n c : ℕ) : (unsetBlocks s start n).isSet c =
      (s.isSet c && !decide (start ≤ c ∧ c < start + n ∧ c < s.maxBlocks)) := by
  induction n with
  | zero =>
    have hno : ¬ (start ≤ c ∧ c < start + 0 ∧ c < s.maxBlocks) := by omega
    rw [unsetBlocks, decide_eq_false hno, Bool.not_false, Bool.and_true]
  | succ n ih =>
    rw [unsetBlocks, isSet_unsetBlock, ih, unsetBlocks_maxBlocks, Bool.and_assoc, ← Bool.not_or,
      ← Bool.decide_or]
    congr 3
    apply propext
    omega

variable {s : State}

theorem wellCounted_setBlocks (h : WellCounted s) (start n : ℕ) :
    WellCounted (setBlocks s start n) := by
  induction n with
  | zero => exact h
  | succ n ih => exact wellCounted_setBlock ih (start + n)

theorem wellCounted_unsetBlocks (h : WellCounted s) (start n : ℕ) :
    WellCounted (unsetBlocks s start n) := by
  induction n with
  | zero => exact h
  | succ n ih => exact wellCounted_unsetBlock ih (start + n)

theorem allocScanBits_spec {i : ℕ} (fuel j block : ℕ) (hj : j + fuel ≤ 32)
    (h : allocScanBits s i fuel j = some block) : block < s.maxBlocks ∧ s.isSet block = false := by
  induction fuel generalizing j with
  | zero => simp [allocScanBits] at h
  | succ fuel ih =>
    rw [allocScanBits] at h
    split_ifs at h with hmax hbit
    · obtain rfl : i * 32 + j = block := Option.some.inj h
      have hdiv : (i * 32 + j) / 32 = i := by omega
      have hmod : (i * 32 + j) % 32 = j := by omega
      have hclear : s.bitClear (i * 32 + j) = true := by
        simpa only [State.bitClear, hdiv, hmod] using hbit
      rw [bitClear_eq] at hclear
      exact ⟨Nat.lt_of_not_le hmax, by simpa using hclear⟩
    · exact ih (j + 1) (by omega) h

theorem allocScanWords_spec (fuel i block : ℕ) (h : allocScanWords s fuel i = some block) :
    block < s.maxBlocks ∧ s.isSet block = false := by
  induction fuel generalizing i with
  | zero => simp [allocScanWords] at h
  | succ fuel ih =>
    rw [allocScanWords] at h
    split_ifs at h with hfull
    · cases hb : allocScanBits s i 32 0 with
      | some found =>
        rw [hb] at h
        obtain rfl : found = block := Option.some.inj h
        exact allocScanBits_spec 32 0 found (by norm_num) hb
      | none =>
        rw [hb] at h
        exact ih (i + 1) h
    · exact ih (i + 1) h

def FreeRun (s : State) (start n : ℕ) : Prop :=
  start + n ≤ s.maxBlocks ∧ ∀ c, start ≤ c → c < start + n → s.isSet c = false

/-- The first run of `n` clear blocks from block 1 on, if there is one. -/
def FirstRun (s : State) (n : ℕ) : Option ℕ → Prop
  | none => ∀ st, 1 ≤ st → ¬ FreeRun s st n
  | some start => 1 ≤ start ∧ FreeRun s start n ∧ ∀ st, 1 ≤ st → FreeRun s st n → start ≤ st

/-- The scan keeps a run of clear bits that ends just before the current block, and no long enough
run begins before it. -/
theorem regionScan_spec {needed : ℕ} (fuel block runStart runLen : ℕ)
    (hbound : block + fuel = s.maxBlocks) (hrun : runOrigin block runStart runLen + runLen = block)
    (hpos : 1 ≤ runOrigin block runStart runLen)
    (hclear : ∀ c, runOrigin block runStart runLen ≤ c → c < block → s.isSet c = false)
    (hshort : runLen < needed)
    (hfirst : ∀ st, 1 ≤ st → FreeRun s st needed → runOrigin block runStart runLen ≤ st) :
    FirstRun s needed (regionScan s needed fuel block runStart runLen) := by
  induction fuel generalizing block runStart runLen with
  | zero =>
    intro st hst hfree
    have hle := hfirst st hst hfree
    have hend := hfree.1
    omega
  | succ fuel ih =>
    rw [regionScan, bitClear_eq]
    generalize hr : runOrigin block runStart runLen = origin at hrun hpos hclear hfirst ⊢
    have hsame : runOrigin (block + 1) origin (runLen + 1) = origin := if_neg (succ_ne_zero _)
    cases hbit : s.isSet block with
    | false =>
      have hgrown : ∀ c, origin ≤ c → c < block + 1 → s.isSet c = false := by
        intro c hc hlt
        rcases Nat.lt_succ_iff_lt_or_eq.1 hlt with hlt | rfl
        · exact hclear c hc hlt
        · exact hbit
      rw [if_pos (by decide)]
      split_ifs with hdone
      · exact ⟨hpos, ⟨by omega, fun c hc hlt => hgrown c hc (by omega)⟩, hfirst⟩
      · refine ih (block + 1) origin (runLen + 1) (by omega) ?_ ?_ ?_ (by omega) ?_ <;> rw [hsame]
        · omega
        · exact hpos
        · exact hgrown
        · exact hfirst
    | true =>
      refine ih (block + 1) runStart 0 (by omega) rfl (succ_pos _)
        (fun c hc hlt => absurd hc (not_le.2 hlt)) (by omega) (fun st hst hfree => ?_)
      by_contra hlt
      have hle := hfirst st hst hfree
      change ¬ block + 1 ≤ st at hlt
      have hset := hfree.2 block (by omega) (by omega)
      rw [hbit] at hset
      cases hset

theorem firstRun_regionScan {needed : ℕ} (hneed : 0 < needed) :
    FirstRun s needed (regionScan s needed (s.maxBlocks - 1) 1 0 0) := by
  rcases Nat.eq_zero_or_pos s.maxBlocks with hzero | hmax
  · rw [hzero]
    intro st hst hfree
    have hend := hfree.1
    omega
  · exact regionScan_spec _ 1 0 0 (by omega) rfl le_rfl
      (fun c hc hlt => absurd hc (not_le.2 hlt)) hneed (fun st hst _ => hst)

theorem alignUp_div_pos {n : ℕ} (hn : 0 < n) : 0 < alignUp n / pageSize := by
  by_cases hbig : n ≤ 0xFFFFF000
  · rw [alignUp_div_pageSize hbig]
    unfold pageSize
    omega
  · rw [alignUp_div_pageSize_of_gt (by omega)]
    norm_num

theorem allocBlock_cases (s : State) : allocBlock s = (s, 0) ∨
      ∃ b, b < s.maxBlocks ∧ s.isSet b = false ∧
        allocBlock s = (setBlock s b, u32 (b * pageSize)) := by
  unfold allocBlock
  cases hs : allocScanWords s (bitmapWords s.maxBlocks) 0 with
  | none => exact .inl rfl
  | some b =>
    obtain ⟨hb, hclear⟩ := allocScanWords_spec _ _ b hs
    exact .inr ⟨b, hb, hclear, rfl⟩

def blocksOf (size : BitVec 32) : ℕ := (size.toNat + (pageSize - 1)) / pageSize

/-- A saturated size asks for more blocks than the managed range can hold. -/
theorem allocRegion_first (hmax : s.maxBlocks < 2 ^ 20) {size : BitVec 32} (hsize : size ≠ 0) :
    ∃ r, FirstRun s (blocksOf size) r ∧ allocRegion s size =
      r.elim (s, 0) fun start => (setBlocks s start (blocksOf size), u32 (start * pageSize)) := by
  have hspec := firstRun_regionScan (s := s) (alignUp_div_pos (toNat_pos_of_ne_zero hsize))
  rw [allocRegion, if_neg hsize]
  by_cases hbig : size.toNat ≤ 0xFFFFF000
  · rw [alignUp_div_pageSize hbig] at hspec ⊢
    refine ⟨_, hspec, ?_⟩
    dsimp only
    cases regionScan s ((size.toNat + (pageSize - 1)) / pageSize) (s.maxBlocks - 1) 1 0 0 <;> rfl
  · rw [alignUp_div_pageSize_of_gt (by omega)] at hspec ⊢
    cases hs : regionScan s (2 ^ 20 - 1) (s.maxBlocks - 1) 1 0 0 with
    | none =>
      refine ⟨none, fun st hst hfree => ?_, by simp only [hs]; rfl⟩
      have hend := hfree.1
      unfold blocksOf pageSize at hend
      omega
    | some start =>
      rw [hs] at hspec
      obtain ⟨hstart, ⟨hend, -⟩, -⟩ := hspec
      omega

theorem allocRegion_cases (s : State) (hmax : s.maxBlocks < 2 ^ 20) (size : BitVec 32) :
    allocRegion s size = (s, 0) ∨
      ∃ start, 1 ≤ start ∧ start + (size.toNat + (pageSize - 1)) / pageSize ≤ s.maxBlocks ∧
        (∀ c, start ≤ c → c < start + (size.toNat + (pageSize - 1)) / pageSize →
          s.isSet c = false) ∧
        allocRegion s size =
          (setBlocks s start ((size.toNat + (pageSize - 1)) / pageSize),
            u32 (start * pageSize)) := by
  by_cases hz : size = 0
  · exact .inl (if_pos hz)
  · obtain ⟨r, hr, he⟩ := allocRegion_first hmax hz
    cases r with
    | none => exact .inl he
    | some start => exact .inr ⟨start, hr.1, hr.2.1.1, hr.2.1.2, he⟩

end MicroK.Pmm
