import MicroK.BootLayout

/-!
# The regions of the high page pool

When the usable ranges of the map are disjoint and end below `2 ^ 52`, the recorded regions are
`Sound`: whole pages of usable ranges above 4 GiB, no byte in two of them. Block numbers and pages
of the pool then correspond to each other one to one.
-/

namespace MicroK.HighPool

open Pmm Boot

structure Region where
  base : ℕ
  blocks : ℕ
  firstBlockIndex : ℕ
deriving DecidableEq

/-- `bits` holds the bitmap, the number of blocks of the pool and the counter of used ones;
`ready` says that the bitmap has been allocated. -/
structure Pool where
  regions : List Region
  bits : State
  ready : Bool

def maxMemoryRegions : ℕ := 32

def u64 (n : ℕ) : ℕ := n % 2 ^ 64

def alignUpPhys (value : ℕ) : ℕ := u64 (value + pageSize - 1) &&& (2 ^ 64 - pageSize)

def alignDownPhys (value : ℕ) : ℕ := value &&& (2 ^ 64 - pageSize)

def resetMemoryRegions (mem : ℕ → BitVec 32) : Pool := ⟨[], ⟨mem, 0, 0⟩, false⟩

variable (p : Pool)

/-- A new region behind the ones there are, cut so that block numbers stay below `2 ^ 32`. -/
def addRegion (regionBase regionEnd : ℕ) : Pool :=
  let blocks64 := (regionEnd - regionBase) / pageSize
  if blocks64 > 0 then
    let blocks := if blocks64 > 0xFFFFFFFF - p.bits.maxBlocks
      then 0xFFFFFFFF - p.bits.maxBlocks else blocks64
    { p with
      regions := p.regions ++ [⟨regionBase, blocks, p.bits.maxBlocks⟩]
      bits := { p.bits with maxBlocks := p.bits.maxBlocks + blocks } }
  else p

/-- The end of a range, cut at the end of the 64-bit address space. -/
def rangeEnd (e : MmapEntry) : ℕ :=
  if u64 (e.base + e.length) < e.base then 2 ^ 64 - 1 else u64 (e.base + e.length)

def highStart (e : MmapEntry) : ℕ := if e.base > 2 ^ 32 then e.base else 2 ^ 32

def recordHighMemoryRegion (e : MmapEntry) : Pool :=
  if e.length = 0 then p
  else if rangeEnd e ≤ 2 ^ 32 then p
  else if (rangeEnd e - highStart e) / 1024 = 0 then p
  else if e.type = 1 then
    if alignDownPhys (rangeEnd e) > alignUpPhys (highStart e) ∧
        p.regions.length < maxMemoryRegions
    then addRegion p (alignUpPhys (highStart e)) (alignDownPhys (rangeEnd e)) else p
  else p

def record (mem : ℕ → BitVec 32) (entries : List MmapEntry) : Pool :=
  entries.foldl recordHighMemoryRegion (resetMemoryRegions mem)

def highBitmapWords (totalBlocks : ℕ) : ℕ := u32 (totalBlocks + 31) / 32

/-- The bytes of low memory that hold the bitmap of the pool, in whole pages. -/
def highBitmapRegion (totalBlocks : ℕ) : BitVec 32 :=
  BitVec.ofNat 32 (u32 (highBitmapWords totalBlocks * 4 + pageSize - 1) / pageSize * pageSize)

def initHigh (low : State) : Pool × State :=
  if p.bits.maxBlocks = 0 then (p, low)
  else
    let (low', lowBlock) := allocRegion low (highBitmapRegion p.bits.maxBlocks)
    if lowBlock ≠ 0 then
      ({ p with
          bits := { p.bits with
            bitmap := fun i => if i < highBitmapWords p.bits.maxBlocks then 0 else p.bits.bitmap i }
          ready := true }, low')
    else (p, low')

def Region.holdsIndex (r : Region) (blockIndex : ℕ) : Bool :=
  r.firstBlockIndex ≤ blockIndex && blockIndex < u32 (r.firstBlockIndex + r.blocks)

def highBlockIndexToPhys (regions : List Region) (blockIndex : ℕ) : ℕ :=
  match regions.find? (·.holdsIndex blockIndex) with
  | some r => u64 (r.base + (blockIndex - r.firstBlockIndex) * pageSize)
  | none => 0

def Region.holdsPhys (r : Region) (phys : ℕ) : Bool :=
  r.base ≤ phys && phys < u64 (r.base + r.blocks * pageSize) && (phys - r.base) % pageSize == 0

def highPhysToBlockIndex (regions : List Region) (phys : ℕ) : Option ℕ :=
  (regions.find? (·.holdsPhys phys)).map fun r =>
    u32 (r.firstBlockIndex + (phys - r.base) / pageSize)

def takeBlock (s : State) (block : ℕ) : State :=
  { s with
    bitmap := Function.update s.bitmap (block / 32)
      (s.bitmap (block / 32) ||| bitMask (block % 32))
    usedBlocks := u32 (s.usedBlocks + 1) }

def allocHighBlock : Pool × ℕ :=
  if !p.ready || p.bits.maxBlocks = 0 then (p, 0)
  else
    match allocScanWords p.bits (highBitmapWords p.bits.maxBlocks) 0 with
    | some block => ({ p with bits := takeBlock p.bits block },
      highBlockIndexToPhys p.regions block)
    | none => (p, 0)

def releaseBlock (s : State) (block : ℕ) : State :=
  if s.bitClear block then s
  else
    { s with
      bitmap := Function.update s.bitmap (block / 32)
        (s.bitmap (block / 32) &&& ~~~ bitMask (block % 32))
      usedBlocks := u32 (s.usedBlocks + (2 ^ 32 - 1)) }

def freeHighBlock (phys : ℕ) : Pool :=
  if !p.ready then p
  else
    match highPhysToBlockIndex p.regions phys with
    | some block => { p with bits := releaseBlock p.bits block }
    | none => p

theorem takeBlock_eq {s : State} {b : ℕ} (hb : b < s.maxBlocks) (hclear : s.isSet b = false) :
    takeBlock s b = setBlock s b := by
  have hbit : s.bitClear b = true := by rw [bitClear_eq, hclear, Bool.not_false]
  rw [setBlock, if_neg (Nat.not_le.mpr hb), if_pos hbit, takeBlock]

theorem releaseBlock_eq {s : State} {b : ℕ} (hb : b < s.maxBlocks) :
    releaseBlock s b = unsetBlock s b := by
  rw [unsetBlock, if_neg (Nat.not_le.mpr hb), releaseBlock]

def Indexed : ℕ → List Region → ℕ → Prop
  | n, [], total => total = n
  | n, r :: rs, total => r.firstBlockIndex = n ∧ Indexed (n + r.blocks) rs total

variable {n total : ℕ} {rs : List Region}

variable (h : Indexed n rs total)
include h

theorem Indexed.snoc (r : Region) (hr : r.firstBlockIndex = total) :
    Indexed n (rs ++ [r]) (total + r.blocks) := by
  induction rs generalizing n with
  | nil =>
    obtain rfl : total = n := h
    exact ⟨hr, rfl⟩
  | cons q rs ih => exact ⟨h.1, ih h.2⟩

theorem Indexed.le : n ≤ total := by
  induction rs generalizing n with
  | nil => exact (show total = n from h).ge
  | cons q rs ih => exact (Nat.le_add_right _ _).trans (ih h.2)

theorem Indexed.mem {r : Region} (hr : r ∈ rs) :
    n ≤ r.firstBlockIndex ∧ r.firstBlockIndex + r.blocks ≤ total := by
  induction rs generalizing n with
  | nil => cases hr
  | cons q rs ih =>
    obtain ⟨hq, hrest⟩ := h
    rcases List.mem_cons.mp hr with rfl | hmem
    · exact ⟨hq.ge, hq ▸ hrest.le⟩
    · have hbounds := ih hrest hmem
      omega

theorem Indexed.exists_region {i : ℕ} (hn : n ≤ i) (hi : i < total) :
    ∃ r ∈ rs, r.firstBlockIndex ≤ i ∧ i < r.firstBlockIndex + r.blocks := by
  induction rs generalizing n with
  | nil =>
    obtain rfl : total = n := h
    omega
  | cons q rs ih =>
    obtain ⟨hq, hrest⟩ := h
    by_cases hlt : i < n + q.blocks
    · exact ⟨q, List.mem_cons_self, by omega, by omega⟩
    · obtain ⟨r, hr, hbounds⟩ := ih hrest (by omega)
      exact ⟨r, .tail _ hr, hbounds⟩

theorem Indexed.unique {i : ℕ} {q r : Region} (hq : q ∈ rs) (hr : r ∈ rs)
    (hqi : q.firstBlockIndex ≤ i ∧ i < q.firstBlockIndex + q.blocks)
    (hri : r.firstBlockIndex ≤ i ∧ i < r.firstBlockIndex + r.blocks) : q = r := by
  induction rs generalizing n with
  | nil => cases hq
  | cons p rs ih =>
    obtain ⟨hp, hrest⟩ := h
    rcases List.mem_cons.mp hq with rfl | hq' <;> rcases List.mem_cons.mp hr with rfl | hr'
    · rfl
    · have := (hrest.mem hr').1
      omega
    · have := (hrest.mem hq').1
      omega
    · exact ih hrest hq' hr'

end MicroK.HighPool

namespace MicroK.HighPool

open Pmm Boot List Nat

def Region.Contains (r : Region) (a : ℕ) : Prop :=
  r.base ≤ a ∧ a < r.base + r.blocks * pageSize

def Apart (d e : MmapEntry) : Prop := ∀ a, d.Contains a → ¬ e.Contains a

/-- The regions lie on page boundaries above 4 GiB, inside usable ranges, and share no byte. -/
structure Sound (entries : List MmapEntry) (regions : List Region) (total : ℕ) : Prop where
  indexed : Indexed 0 regions total
  total_lt : total < 2 ^ 32
  aligned : ∀ r ∈ regions, r.base % pageSize = 0
  high : ∀ r ∈ regions, 2 ^ 32 ≤ r.base ∧ r.base + r.blocks * pageSize ≤ 2 ^ 52
  inside : ∀ r ∈ regions, ∃ e ∈ entries, e.type = 1 ∧ ∀ a, r.Contains a → e.Contains a
  unique : ∀ q ∈ regions, ∀ r ∈ regions, ∀ a, q.Contains a → r.Contains a → q = r

theorem alignDownPhys_eq {v : ℕ} (hv : v < 2 ^ 64) : alignDownPhys v = v / pageSize * pageSize :=
  and_high_mask_width (k := 12) hv (by norm_num)

theorem alignUpPhys_eq {v : ℕ} (hv : v ≤ 2 ^ 52) :
    alignUpPhys v = (v + (pageSize - 1)) / pageSize * pageSize := by
  have hlt : v + pageSize - 1 < 2 ^ 64 := by
    unfold pageSize
    omega
  have hmask := and_high_mask_width (k := 12) (mod_lt (v + pageSize - 1)
    (by norm_num : 0 < 2 ^ 64)) (by norm_num)
  apply hmask.trans
  rw [mod_eq_of_lt hlt]
  rfl

variable {entries : List MmapEntry} {regions : List Region} {total i : ℕ} {e : MmapEntry}
  {r : Region}

theorem Sound.mono (h : Sound entries regions total) (e : MmapEntry) :
    Sound (entries ++ [e]) regions total where
  indexed := h.indexed
  total_lt := h.total_lt
  aligned := h.aligned
  high := h.high
  inside r hr := by
    obtain ⟨d, hd, hin⟩ := h.inside r hr
    exact ⟨d, mem_append_left _ hd, hin⟩
  unique := h.unique

theorem Sound.snoc (h : Sound entries regions total) (htype : e.type = 1)
    (hapart : ∀ d ∈ entries, d.type = 1 → Apart d e) (hfirst : r.firstBlockIndex = total)
    (htotal : total + r.blocks < 2 ^ 32) (halign : r.base % pageSize = 0)
    (hhigh : 2 ^ 32 ≤ r.base ∧ r.base + r.blocks * pageSize ≤ 2 ^ 52)
    (hin : ∀ a, r.Contains a → e.Contains a) :
    Sound (entries ++ [e]) (regions ++ [r]) (total + r.blocks) := by
  have hnew : ∀ q ∈ regions, ∀ a, q.Contains a → ¬ r.Contains a := by
    intro q hq a hqa hra
    obtain ⟨d, hd, hdtype, hqd⟩ := h.inside q hq
    exact hapart d hd hdtype a (hqd a hqa) (hin a hra)
  constructor
  · exact h.indexed.snoc r hfirst
  · exact htotal
  · intro q hq
    rcases mem_append.mp hq with hq | hq
    · exact h.aligned q hq
    · rwa [mem_singleton.mp hq]
  · intro q hq
    rcases mem_append.mp hq with hq | hq
    · exact h.high q hq
    · rwa [mem_singleton.mp hq]
  · intro q hq
    rcases mem_append.mp hq with hq | hq
    · exact (h.mono e).inside q hq
    · rw [mem_singleton.mp hq]
      exact ⟨e, mem_append_right _ (mem_singleton_self e), htype, hin⟩
  · intro q hq p hp a hqa hpa
    rcases mem_append.mp hq with hq | hq <;> rcases mem_append.mp hp with hp | hp
    · exact h.unique q hq p hp a hqa hpa
    · rw [mem_singleton.mp hp] at hpa
      exact absurd hpa (hnew q hq a hqa)
    · rw [mem_singleton.mp hq] at hqa
      exact absurd hqa (hnew p hp a hpa)
    · rw [mem_singleton.mp hq, mem_singleton.mp hp]

theorem rangeEnd_eq (hend : e.base + e.length ≤ 2 ^ 52) : rangeEnd e = e.base + e.length := by
  have hsum : u64 (e.base + e.length) = e.base + e.length :=
    mod_eq_of_lt (hend.trans_lt (by norm_num))
  rw [rangeEnd, hsum, if_neg (not_lt.mpr (le_add_right _ _))]

theorem highStart_eq (e : MmapEntry) : highStart e = max e.base (2 ^ 32) := by
  unfold highStart
  split_ifs <;> omega

theorem whole_pages_inside (hend : e.base + e.length ≤ 2 ^ 52) :
    alignUpPhys (highStart e) % pageSize = 0 ∧
      2 ^ 32 ≤ alignUpPhys (highStart e) ∧ e.base ≤ alignUpPhys (highStart e) ∧
      alignDownPhys (rangeEnd e) ≤ e.base + e.length := by
  have hdown := alignDownPhys_eq (v := e.base + e.length) (by omega)
  have hup := alignUpPhys_eq (v := max e.base (2 ^ 32)) (max_le (by omega) (by norm_num))
  rw [rangeEnd_eq hend, hdown, highStart_eq, hup] at *
  unfold pageSize at *
  omega

/-- A region inside a usable range apart from the ones recorded before. The bounds are variables,
so that no proof term looks into the alignment functions. -/
theorem sound_addRegion {p : Pool} {start stop : ℕ} (h : Sound entries p.regions p.bits.maxBlocks)
    (htype : e.type = 1) (hapart : ∀ d ∈ entries, d.type = 1 → Apart d e)
    (hend : e.base + e.length ≤ 2 ^ 52) (halign : start % pageSize = 0) (hlow : 2 ^ 32 ≤ start)
    (hbase : e.base ≤ start) (hstop : stop ≤ e.base + e.length) (hlt : start < stop) :
    Sound (entries ++ [e]) (addRegion p start stop).regions
      (addRegion p start stop).bits.maxBlocks := by
  have htotal := h.total_lt
  unfold addRegion
  by_cases hpos : (stop - start) / pageSize > 0
  · rw [if_pos hpos]
    generalize hb : (if (stop - start) / pageSize > 0xFFFFFFFF - p.bits.maxBlocks
      then 0xFFFFFFFF - p.bits.maxBlocks else (stop - start) / pageSize) = blocks
    have hle : blocks ≤ (stop - start) / pageSize ∧ p.bits.maxBlocks + blocks < 2 ^ 32 := by
      rw [← hb]
      split_ifs <;> omega
    have hpages : start + blocks * pageSize ≤ e.base + e.length := by
      have hmul := (le_div_iff_mul_le (by decide : 0 < pageSize)).mp hle.1
      omega
    apply h.snoc (r := ⟨_, blocks, _⟩) htype hapart rfl hle.2 halign ⟨hlow, hpages.trans hend⟩
    rintro a ⟨hlo, hhi⟩
    exact ⟨hbase.trans hlo, hhi.trans_le hpages⟩
  · rw [if_neg hpos]
    exact h.mono e

theorem recordHighMemoryRegion_cases (p : Pool) (e : MmapEntry) :
    recordHighMemoryRegion p e = p ∨
      e.type = 1 ∧ alignUpPhys (highStart e) < alignDownPhys (rangeEnd e) ∧
        recordHighMemoryRegion p e =
          addRegion p (alignUpPhys (highStart e)) (alignDownPhys (rangeEnd e)) := by
  unfold recordHighMemoryRegion
  split_ifs with h1 h2 h3 htype hroom
  · exact .inl rfl
  · exact .inl rfl
  · exact .inl rfl
  · exact .inr ⟨htype, hroom.1, rfl⟩
  · exact .inl rfl
  · exact .inl rfl

theorem sound_recordHighMemoryRegion {p : Pool} (h : Sound entries p.regions p.bits.maxBlocks)
    (hapart : e.type = 1 → ∀ d ∈ entries, d.type = 1 → Apart d e)
    (hend : e.type = 1 → e.base + e.length ≤ 2 ^ 52) :
    Sound (entries ++ [e]) (recordHighMemoryRegion p e).regions
      (recordHighMemoryRegion p e).bits.maxBlocks := by
  rcases recordHighMemoryRegion_cases p e with heq | ⟨htype, hlt, heq⟩
  · rw [heq]
    exact h.mono e
  · rw [heq]
    obtain ⟨halign, hlow, hbase, hstop⟩ := whole_pages_inside (hend htype)
    exact sound_addRegion h htype (hapart htype) (hend htype) halign hlow hbase hstop hlt

/-- What the map has to satisfy: usable ranges share no byte and end below `2 ^ 52`. -/
def Disjoint52 (entries : List MmapEntry) : Prop :=
  entries.Pairwise (fun d e => d.type = 1 → e.type = 1 → Apart d e) ∧
    ∀ e ∈ entries, e.type = 1 → e.base + e.length ≤ 2 ^ 52

variable (mem : ℕ → BitVec 32)

theorem record_snoc (entries : List MmapEntry) (e : MmapEntry) :
    record mem (entries ++ [e]) = recordHighMemoryRegion (record mem entries) e := by
  rw [record, foldl_append, foldl_cons, foldl_nil, record]

theorem sound_record (h : Disjoint52 entries) :
    Sound entries (record mem entries).regions (record mem entries).bits.maxBlocks := by
  induction entries using List.reverseRecOn with
  | nil => constructor <;> simp [record, resetMemoryRegions, Indexed]
  | append_singleton es e ih =>
    obtain ⟨hpair, hends⟩ := h
    obtain ⟨hes, -, hcross⟩ := pairwise_append.mp hpair
    have hprev := ih ⟨hes, fun d hd => hends d (mem_append_left _ hd)⟩
    rw [record_snoc]
    refine sound_recordHighMemoryRegion hprev (fun htype d hd hdtype => ?_)
      (hends e (mem_append_right _ (mem_singleton_self e)))
    exact hcross d hd e (mem_singleton_self e) hdtype htype

variable (h : Sound entries regions total)
include h

theorem highBlockIndexToPhys_of_mem (hr : r ∈ regions)
    (hi : r.firstBlockIndex ≤ i ∧ i < r.firstBlockIndex + r.blocks) :
    highBlockIndexToPhys regions i = r.base + (i - r.firstBlockIndex) * pageSize := by
  have htotal := h.total_lt
  have hholds : ∀ q ∈ regions, q.holdsIndex i = true ↔
      q.firstBlockIndex ≤ i ∧ i < q.firstBlockIndex + q.blocks := by
    intro q hq
    have hbound := (h.indexed.mem hq).2
    rw [Region.holdsIndex, u32_of_lt (by omega), Bool.and_eq_true, decide_eq_true_iff,
      decide_eq_true_iff]
  unfold highBlockIndexToPhys
  cases hfind : regions.find? (·.holdsIndex i) with
  | none =>
    have hno := find?_eq_none.mp hfind r hr
    exact absurd ((hholds r hr).mpr hi) hno
  | some q =>
    have hq := mem_of_find?_eq_some hfind
    have hqi : q.holdsIndex i = true := find?_some (p := fun q : Region => q.holdsIndex i) hfind
    obtain rfl : q = r := h.indexed.unique hq hr ((hholds q hq).mp hqi) hi
    have hend := (h.high q hq).2
    have hoff : (i - q.firstBlockIndex) * pageSize ≤ q.blocks * pageSize :=
      mul_le_mul_right _ (by omega)
    exact mod_eq_of_lt (by omega)

theorem Region.holdsPhys_iff (hr : r ∈ regions) (a : ℕ) :
    r.holdsPhys a = true ↔ r.Contains a ∧ a % pageSize = 0 := by
  have hend := (h.high r hr).2
  have halign := h.aligned r hr
  have hmod : u64 (r.base + r.blocks * pageSize) = r.base + r.blocks * pageSize :=
    mod_eq_of_lt (by omega)
  simp only [Region.holdsPhys, hmod, Bool.and_eq_true, decide_eq_true_iff, beq_iff_eq,
    Region.Contains]
  refine and_congr_right fun hin => ?_
  unfold pageSize at *
  omega

theorem highPhysToBlockIndex_eq_some_iff (a i : ℕ) : highPhysToBlockIndex regions a = some i ↔
      ∃ r ∈ regions, r.Contains a ∧ a % pageSize = 0 ∧
        i = r.firstBlockIndex + (a - r.base) / pageSize := by
  have hindex : ∀ r ∈ regions, r.Contains a →
      u32 (r.firstBlockIndex + (a - r.base) / pageSize) =
        r.firstBlockIndex + (a - r.base) / pageSize := by
    intro r hr hin
    have hbound := (h.indexed.mem hr).2
    have htotal := h.total_lt
    unfold Region.Contains pageSize at *
    apply u32_of_lt
    omega
  unfold highPhysToBlockIndex
  rw [Option.map_eq_some_iff]
  constructor
  · rintro ⟨r, hfind, rfl⟩
    have hr := mem_of_find?_eq_some hfind
    have hra : r.holdsPhys a = true := find?_some (p := fun q : Region => q.holdsPhys a) hfind
    obtain ⟨hin, hpage⟩ := (Region.holdsPhys_iff h hr a).mp hra
    exact ⟨r, hr, hin, hpage, hindex r hr hin⟩
  · rintro ⟨r, hr, hin, hpage, rfl⟩
    cases hfind : regions.find? (·.holdsPhys a) with
    | none =>
      have hno := find?_eq_none.mp hfind r hr
      exact absurd ((Region.holdsPhys_iff h hr a).mpr ⟨hin, hpage⟩) hno
    | some q =>
      have hq := mem_of_find?_eq_some hfind
      have hqa : q.holdsPhys a = true := find?_some (p := fun q : Region => q.holdsPhys a) hfind
      obtain rfl : q = r := h.unique q hq r hr a ((Region.holdsPhys_iff h hq a).mp hqa).1 hin
      exact ⟨q, rfl, hindex q hq hin⟩

omit h

theorem contains_page (hi : r.firstBlockIndex ≤ i ∧ i < r.firstBlockIndex + r.blocks) {k : ℕ}
    (hk : k < pageSize) : r.Contains (r.base + (i - r.firstBlockIndex) * pageSize + k) := by
  unfold Region.Contains pageSize at *
  omega

theorem highPhysToBlockIndex_indexToPhys (h : Sound entries regions total) (hi : i < total) :
    highPhysToBlockIndex regions (highBlockIndexToPhys regions i) = some i := by
  obtain ⟨r, hr, hri⟩ := h.indexed.exists_region (Nat.zero_le i) hi
  have halign := h.aligned r hr
  rw [highBlockIndexToPhys_of_mem h hr hri, highPhysToBlockIndex_eq_some_iff h]
  refine ⟨r, hr, contains_page hri (by decide : 0 < pageSize), ?_, ?_⟩
  · rw [Nat.add_mul_mod_self_right]
    exact halign
  · rw [Nat.add_sub_cancel_left, Nat.mul_div_cancel _ (by decide : 0 < pageSize)]
    omega

theorem highBlockIndexToPhys_physToIndex (h : Sound entries regions total) {a : ℕ}
    (ha : highPhysToBlockIndex regions a = some i) :
    i < total ∧ highBlockIndexToPhys regions i = a := by
  obtain ⟨r, hr, hin, hpage, rfl⟩ := (highPhysToBlockIndex_eq_some_iff h a i).mp ha
  have halign := h.aligned r hr
  have hbound := (h.indexed.mem hr).2
  have hlt : (a - r.base) / pageSize < r.blocks := by
    unfold Region.Contains pageSize at *
    omega
  refine ⟨by omega, ?_⟩
  rw [highBlockIndexToPhys_of_mem h hr ⟨Nat.le_add_right _ _, Nat.add_lt_add_left hlt _⟩,
    Nat.add_sub_cancel_left]
  unfold Region.Contains pageSize at *
  omega

end MicroK.HighPool
