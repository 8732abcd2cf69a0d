import MicroK.MachineWords
import MicroK.BlockTiling

/-!
# The kernel heap as the code runs it

Memory is a map from 4-byte aligned addresses to 32-bit words. A header is four words: the
address of the next header, the payload size, the magic number and the free flag. Address zero
is the null pointer. Every loop over the chain carries a bound: a chain that stays inside the
window has no more than `HEAP_SIZE / sizeof(header_t)` headers.
-/

namespace MicroK.Kheap

open List Nat Function

def heapMinStart : ℕ := 0xC00000

def heapSize : ℕ := 0x2000000

def heapAlign : ℕ := 0x1000

def kheapMagic : ℕ := 0x4B484541

def headerSize : ℕ := 16

structure Heap where
  mem : ℕ → ℕ
  /-- `heap_phys_start` -/
  physStart : ℕ
  /-- `heap_start` -/
  start : ℕ

namespace Heap

variable (hp : Heap) (a : ℕ)

def next : ℕ := hp.mem a

def size : ℕ := hp.mem (a + 4)

def magic : ℕ := hp.mem (a + 8)

def isFree : ℕ := hp.mem (a + 12)

variable (v : ℕ)

def store : Heap := { hp with mem := Function.update hp.mem a v }

def setNext : Heap := hp.store a v

def setSize : Heap := hp.store (a + 4) v

def setMagic : Heap := hp.store (a + 8) v

def setIsFree : Heap := hp.store (a + 12) v

end Heap

def alignUpU32 (value align : ℕ) : ℕ := u32 (value + (align - 1)) &&& (2 ^ 32 - align)

def align4 (size : ℕ) : ℕ := u32 (size + 3) &&& (2 ^ 32 - 4)

def headerInHeap (hp : Heap) (header : ℕ) : Bool :=
  hp.physStart ≤ header && u32 (header + headerSize) ≤ u32 (hp.physStart + heapSize)

/-- The check that every walk makes before it trusts a header. -/
def headerOk (hp : Heap) (header : ℕ) : Bool :=
  headerInHeap hp header && hp.magic header == kheapMagic

def ptrToHeader (hp : Heap) (ptr : ℕ) : Option ℕ :=
  if ptr = 0 then none
  else if ptr < u32 (hp.physStart + headerSize) ∨ u32 (hp.physStart + heapSize) ≤ ptr then none
  else if headerOk hp (ptr - headerSize) then some (ptr - headerSize) else none

/-- Bound on the number of headers that a walk can meet. -/
def loopFuel : ℕ := heapSize / headerSize + 1

def mergeNext (hp : Heap) (block next : ℕ) : Heap :=
  let grown := hp.setSize block (u32 (hp.size block + (headerSize + hp.size next)))
  grown.setNext block (grown.next next)

def coalesceForward : ℕ → Heap → ℕ → Heap
  | 0, hp, _ => hp
  | fuel + 1, hp, block =>
    if block ≠ 0 ∧ hp.next block ≠ 0 ∧ hp.isFree block ≠ 0 ∧ hp.isFree (hp.next block) ≠ 0 then
      if headerOk hp (hp.next block) then
        coalesceForward fuel (mergeNext hp block (hp.next block)) block
      else hp
    else hp

def init (minStart : BitVec 32) (mem : ℕ → ℕ) : Heap :=
  let start := if minStart.toNat > heapMinStart then minStart.toNat else heapMinStart
  let base := alignUpU32 start heapAlign
  let hp : Heap := ⟨mem, base, base⟩
  (((hp.setSize base (heapSize - headerSize)).setNext base 0).setMagic base kheapMagic).setIsFree
    base 1

def takeBlock (hp : Heap) (curr size : ℕ) : Heap :=
  if u32 (u32 (size + headerSize) + 4) ≤ hp.size curr then
    let next := u32 (u32 (curr + headerSize) + size)
    let rest := ((hp.setSize next (sub32 (sub32 (hp.size curr) size) headerSize)).setMagic next
      kheapMagic).setIsFree next 1
    let linked := rest.setNext next (rest.next curr)
    ((linked.setSize curr size).setNext curr next).setIsFree curr 0
  else hp.setIsFree curr 0

def kmallocLoop : ℕ → Heap → ℕ → ℕ → Heap × ℕ
  | 0, hp, _, _ => (hp, 0)
  | fuel + 1, hp, curr, size =>
    if curr = 0 then (hp, 0)
    else if headerOk hp curr then
      if hp.isFree curr ≠ 0 ∧ size ≤ hp.size curr then
        (takeBlock hp curr size, u32 (curr + headerSize))
      else kmallocLoop fuel hp (hp.next curr) size
    else (hp, 0)

def kmalloc (hp : Heap) (size : ℕ) : Heap × ℕ :=
  if align4 size = 0 then (hp, 0) else kmallocLoop loopFuel hp hp.start (align4 size)

def mergeBefore : ℕ → Heap → ℕ → ℕ → Heap
  | 0, hp, _, _ => hp
  | fuel + 1, hp, header, curr =>
    if curr ≠ 0 ∧ hp.next curr ≠ 0 then
      if headerOk hp curr then
        if hp.next curr = header then coalesceForward loopFuel hp curr
        else mergeBefore fuel hp header (hp.next curr)
      else hp
    else hp

def kfree (hp : Heap) (ptr : ℕ) : Heap :=
  match ptrToHeader hp ptr with
  | none => hp
  | some header =>
    if hp.isFree header ≠ 0 then hp
    else
      let freed := coalesceForward loopFuel (hp.setIsFree header 1) header
      mergeBefore loopFuel freed header freed.start

open BlockTiling

def headAddr : List Block → ℕ
  | [] => 0
  | b :: _ => b.addr

structure HeaderAt (mem : ℕ → ℕ) (b : Block) (next : ℕ) : Prop where
  next_eq : mem b.addr = next
  size_eq : mem (b.addr + 4) = b.size
  magic_eq : mem (b.addr + 8) = kheapMagic
  free_eq : mem (b.addr + 12) = b.free.toNat

def Laid (mem : ℕ → ℕ) : List Block → Prop
  | [] => True
  | b :: bs => HeaderAt mem b (headAddr bs) ∧ Laid mem bs

/-- The heap window lies below 4 GiB and away from the null pointer. -/
structure Window (hp : Heap) : Prop where
  pos : 0 < hp.physStart
  fits : hp.physStart + heapSize < 2 ^ 32

structure Fills (hp : Heap) (a : ℕ) (bs : List Block) : Prop where
  window : Window hp
  lower : hp.physStart ≤ a
  tiles : Tiles headerSize a (hp.physStart + heapSize) bs
  laid : Laid hp.mem bs

variable {hp : Heap} {a fuel : ℕ} {b c : Block} {bs cs : List Block} {mem mem' : ℕ → ℕ}

theorem HeaderAt.congr {next : ℕ} (hb : HeaderAt mem b next)
    (heq : ∀ x, b.addr ≤ x → x < b.addr + headerSize → mem' x = mem x) :
    HeaderAt mem' b next where
  next_eq := (heq _ le_rfl (by simp [headerSize])).trans hb.next_eq
  size_eq := (heq _ (by omega) (by simp [headerSize])).trans hb.size_eq
  magic_eq := (heq _ (by omega) (by simp [headerSize])).trans hb.magic_eq
  free_eq := (heq _ (by omega) (by simp [headerSize])).trans hb.free_eq

theorem Laid.congr {e : ℕ} (hl : Laid mem bs) (ht : Tiles headerSize a e bs)
    (heq : ∀ x, a ≤ x → mem' x = mem x) : Laid mem' bs := by
  induction bs generalizing a with
  | nil => trivial
  | cons b bs ih =>
    have hba := ht.1
    refine ⟨hl.1.congr (fun x hx _ => heq x (by omega)), ih hl.2 ht.2 (fun x hx => heq x ?_)⟩
    omega

/-- Memory with the header of a block written over it. -/
def writeHeader (mem : ℕ → ℕ) (b : Block) (next : ℕ) : ℕ → ℕ := fun x =>
  if x = b.addr then next else if x = b.addr + 4 then b.size
  else if x = b.addr + 8 then kheapMagic else if x = b.addr + 12 then b.free.toNat else mem x

theorem headerAt_writeHeader {next : ℕ} : HeaderAt (writeHeader mem b next) b next := by
  constructor <;> simp [writeHeader]

theorem writeHeader_of_not_mem {next x : ℕ} (hx : x < b.addr ∨ b.addr + headerSize ≤ x) :
    writeHeader mem b next x = mem x := by
  have hh : headerSize = 16 := rfl
  unfold writeHeader
  split_ifs <;> omega

theorem laid_writeHeader {e : ℕ} (ht : Tiles headerSize a e (b :: bs)) (hl : Laid mem bs) :
    Laid (writeHeader mem b (headAddr bs)) (b :: bs) := by
  have hba := ht.1
  exact ⟨headerAt_writeHeader, hl.congr ht.2 (fun x hx => writeHeader_of_not_mem (by omega))⟩

theorem Fills.tail (hf : Fills hp a (b :: bs)) : Fills hp (a + headerSize + b.size) bs where
  window := hf.window
  lower := by
    have := hf.lower
    omega
  tiles := hf.tiles.2
  laid := hf.laid.2

variable (hf : Fills hp a bs)
include hf

theorem Fills.addr_pos (hb : b ∈ bs) : 0 < b.addr := by
  have hlow := (hf.tiles.mem_bounds hb).1
  have hpos := hf.window.pos
  have hle := hf.lower
  omega

theorem Fills.end_lt (hb : b ∈ bs) : b.addr + headerSize + b.size < 2 ^ 32 :=
  (hf.tiles.mem_bounds hb).2.trans_lt hf.window.fits

theorem Fills.headerAt (hb : b ∈ bs) :
    hp.size b.addr = b.size ∧ hp.magic b.addr = kheapMagic ∧ hp.isFree b.addr = b.free.toNat := by
  have hl := hf.laid
  clear hf
  induction bs with
  | nil => cases hb
  | cons d bs ih =>
    rcases mem_cons.1 hb with rfl | hb
    · exact ⟨hl.1.size_eq, hl.1.magic_eq, hl.1.free_eq⟩
    · exact ih hb hl.2

theorem Fills.headerOk (hb : b ∈ bs) : headerOk hp b.addr = true := by
  have hbounds := hf.tiles.mem_bounds hb
  have hlow := hf.lower
  have hfit := hf.window.fits
  have hend : b.addr + headerSize < 2 ^ 32 := by
    omega
  rw [Kheap.headerOk, headerInHeap, u32_of_lt hend, u32_of_lt hfit, (hf.headerAt hb).2.1]
  have hstart : hp.physStart ≤ b.addr := by omega
  have hroom : b.addr + headerSize ≤ hp.physStart + heapSize := by omega
  simp [hstart, hroom]

theorem kmallocLoop_eq (hfuel : bs.length < fuel) (size : ℕ) :
    kmallocLoop fuel hp (headAddr bs) size =
      match bs.find? (fits size) with
      | none => (hp, 0)
      | some b => (takeBlock hp b.addr size, b.addr + headerSize) := by
  induction bs generalizing a fuel with
  | nil =>
    cases fuel with
    | zero => rfl
    | succ fuel => rfl
  | cons b bs ih =>
    cases fuel with
    | zero => cases hfuel
    | succ fuel =>
      obtain ⟨hsize, -, hfree⟩ := hf.headerAt mem_cons_self
      have hpos := hf.addr_pos mem_cons_self
      have hend := hf.end_lt mem_cons_self
      have hcond : (hp.isFree b.addr ≠ 0 ∧ size ≤ hp.size b.addr) ↔ fits size b = true := by
        rw [hsize, hfree]
        cases hbf : b.free <;> simp [fits_iff, hbf]
      rw [headAddr, kmallocLoop, if_neg hpos.ne', if_pos (hf.headerOk mem_cons_self)]
      cases hfit : fits size b with
      | true =>
        rw [if_pos (hcond.2 hfit), find?_cons_of_pos hfit, u32_of_lt (by omega)]
      | false =>
        have hno : ¬ fits size b = true := by simp [hfit]
        rw [if_neg (fun h => hno (hcond.1 h)), find?_cons_of_neg hno]
        have hnext : hp.next b.addr = headAddr bs := hf.laid.1.next_eq
        rw [hnext]
        exact ih hf.tail (lt_of_succ_lt_succ hfuel)

omit hf

variable {size : ℕ}

theorem takeBlock_guard (hf : Fills hp a (b :: bs)) (hle : size ≤ b.size) :
    u32 (u32 (size + headerSize) + 4) = size + headerSize + 4 := by
  have hlow := hf.lower
  have hbounds := hf.tiles.mem_bounds mem_cons_self
  have hheap : heapSize = 0x2000000 := rfl
  rw [u32_of_lt (n := size + headerSize) (by omega), u32_of_lt (by omega)]

theorem takeBlock_split_mem (hf : Fills hp a (b :: bs)) (hroom : size + headerSize + 4 ≤ b.size) :
    (takeBlock hp b.addr size).mem = writeHeader
      (writeHeader hp.mem ⟨b.addr + headerSize + size, b.size - size - headerSize, true⟩
        (headAddr bs)) ⟨b.addr, size, false⟩ (b.addr + headerSize + size) := by
  have hend := hf.end_lt mem_cons_self
  obtain ⟨hnext, hsize, hmagic, -⟩ := hf.laid.1
  have hcurr : hp.size b.addr = b.size := hsize
  have hh : headerSize = 16 := rfl
  have haddr : u32 (u32 (b.addr + headerSize) + size) = b.addr + headerSize + size := by
    rw [u32_of_lt (n := b.addr + headerSize) (by omega), u32_of_lt (by omega)]
  have hrest : sub32 (sub32 b.size size) headerSize = b.size - size - headerSize := by
    rw [sub32_of_le (a := b.size) (by omega) (by omega), sub32_of_le (by omega) (by omega)]
  rw [takeBlock, hcurr, takeBlock_guard hf (by omega), if_pos hroom, haddr, hrest]
  funext x
  simp only [Heap.next, Heap.setNext, Heap.setSize, Heap.setMagic, Heap.setIsFree, Heap.store,
    update_apply, writeHeader]
  grind

theorem takeBlock_whole_mem (hf : Fills hp a (b :: bs)) (hle : size ≤ b.size)
    (hroom : ¬ size + headerSize + 4 ≤ b.size) :
    (takeBlock hp b.addr size).mem = writeHeader hp.mem { b with free := false } (headAddr bs) := by
  obtain ⟨hnext, hsize, hmagic, -⟩ := hf.laid.1
  have hcurr : hp.size b.addr = b.size := hsize
  rw [takeBlock, hcurr, takeBlock_guard hf hle, if_neg hroom]
  funext x
  simp only [Heap.setIsFree, Heap.store, update_apply, writeHeader]
  grind

theorem Fills.mem_suffix (hf : Fills hp a bs) (hb : b ∈ bs) :
    ∃ cs, Fills hp b.addr (b :: cs) := by
  induction bs generalizing a with
  | nil => cases hb
  | cons d bs ih =>
    rcases mem_cons.1 hb with rfl | hb
    · exact ⟨bs, hf.tiles.1 ▸ hf⟩
    · exact ih hf.tail hb

theorem takeBlock_frame (hf : Fills hp a bs) (hb : b ∈ bs) {x : ℕ} (hle : size ≤ b.size)
    (hx : x < b.addr ∨ b.addr + headerSize + b.size ≤ x) :
    (takeBlock hp b.addr size).mem x = hp.mem x := by
  obtain ⟨cs, hfb⟩ := hf.mem_suffix hb
  by_cases hroom : size + headerSize + 4 ≤ b.size
  · rw [takeBlock_split_mem hfb hroom, writeHeader_of_not_mem (by dsimp only; omega),
      writeHeader_of_not_mem (by dsimp only; omega)]
  · rw [takeBlock_whole_mem hfb hle hroom, writeHeader_of_not_mem (by dsimp only; omega)]

theorem headAddr_allocate (size : ℕ) : headAddr (allocate headerSize 4 size bs) = headAddr bs := by
  cases bs with
  | nil => rfl
  | cons b bs =>
    rw [allocate, carve]
    split_ifs <;> rfl

theorem laid_carve (hf : Fills hp a (b :: bs)) (hle : size ≤ b.size) :
    Laid (takeBlock hp b.addr size).mem (carve headerSize 4 size b bs) := by
  have ht : Tiles headerSize a (hp.physStart + heapSize) (carve headerSize 4 size b bs) :=
    tiles_carve hf.tiles
  rw [carve] at ht ⊢
  split_ifs at ht ⊢ with hroom
  · rw [takeBlock_split_mem hf hroom]
    exact laid_writeHeader ht (laid_writeHeader ht.2 hf.laid.2)
  · rw [takeBlock_whole_mem hf hle hroom]
    exact laid_writeHeader ht hf.laid.2

theorem laid_allocate (hf : Fills hp a bs) (hfind : bs.find? (fits size) = some b) :
    Laid (takeBlock hp b.addr size).mem (allocate headerSize 4 size bs) := by
  induction bs generalizing a with
  | nil => cases hfind
  | cons d bs ih =>
    rw [allocate]
    split_ifs with hfit
    · rw [find?_cons_of_pos hfit, Option.some.injEq] at hfind
      subst hfind
      exact laid_carve hf (fits_iff.1 hfit).2
    · rw [find?_cons_of_neg hfit] at hfind
      have hb : b ∈ bs := mem_of_find?_eq_some hfind
      have hle : size ≤ b.size := (fits_iff.1 (find?_some hfind)).2
      have hda := hf.tiles.1
      have hlow := (hf.tail.tiles.mem_bounds hb).1
      refine ⟨?_, ih hf.tail hfind⟩
      rw [headAddr_allocate]
      exact hf.laid.1.congr (fun x _ hx => takeBlock_frame hf.tail hb hle (by omega))

theorem takeBlock_physStart (hp : Heap) (curr size : ℕ) :
    (takeBlock hp curr size).physStart = hp.physStart := by
  unfold takeBlock
  split_ifs <;> rfl

theorem takeBlock_start (hp : Heap) (curr size : ℕ) :
    (takeBlock hp curr size).start = hp.start := by
  unfold takeBlock
  split_ifs <;> rfl

theorem fills_takeBlock (hf : Fills hp a bs) (hfind : bs.find? (fits size) = some b) :
    Fills (takeBlock hp b.addr size) a (allocate headerSize 4 size bs) where
  window := ⟨takeBlock_physStart hp _ _ ▸ hf.window.pos,
    takeBlock_physStart hp _ _ ▸ hf.window.fits⟩
  lower := takeBlock_physStart hp _ _ ▸ hf.lower
  tiles := takeBlock_physStart hp _ _ ▸ tiles_allocate hf.tiles
  laid := laid_allocate hf hfind

variable {hp : Heap} {a fuel : ℕ} {b c : Block} {bs cs : List Block}

theorem mergeNext_mem_of_ne {block next x : ℕ} (hx : x ≠ block) (hx' : x ≠ block + 4) :
    (mergeNext hp block next).mem x = hp.mem x := by
  simp only [mergeNext, Heap.setNext, Heap.setSize, Heap.store, update_apply]
  rw [if_neg hx, if_neg hx']

theorem coalesceForward_frame (fuel : ℕ) (hp : Heap) (block : ℕ) :
    (coalesceForward fuel hp block).physStart = hp.physStart ∧
      (coalesceForward fuel hp block).start = hp.start ∧
      ∀ x, x ≠ block → x ≠ block + 4 → (coalesceForward fuel hp block).mem x = hp.mem x := by
  induction fuel generalizing hp with
  | zero => exact ⟨rfl, rfl, fun _ _ _ => rfl⟩
  | succ fuel ih =>
    rw [coalesceForward]
    split_ifs with hcond hok
    · obtain ⟨hphys, hstart, hmem⟩ := ih (mergeNext hp block (hp.next block))
      exact ⟨hphys, hstart, fun x hx hx' => (hmem x hx hx').trans (mergeNext_mem_of_ne hx hx')⟩
    · exact ⟨rfl, rfl, fun _ _ _ => rfl⟩
    · exact ⟨rfl, rfl, fun _ _ _ => rfl⟩

theorem mergeNext_mem (hf : Fills hp a (b :: c :: cs)) :
    (mergeNext hp b.addr c.addr).mem =
      writeHeader hp.mem { b with size := b.size + (headerSize + c.size) } (headAddr cs) := by
  have hh : headerSize = 16 := rfl
  have hba := hf.tiles.1
  have hca := hf.tiles.2.1
  obtain ⟨⟨-, hbsize, hmagic, hfree⟩, ⟨hnext, hcsize, -, -⟩, -⟩ := hf.laid
  have hend := hf.end_lt (b := c) (by simp)
  have hsum : u32 (hp.size b.addr + (headerSize + hp.size c.addr)) =
      b.size + (headerSize + c.size) := by
    rw [Heap.size, Heap.size, hbsize, hcsize, u32_of_lt (by omega)]
  rw [mergeNext, hsum]
  funext x
  simp only [Heap.next, Heap.setNext, Heap.setSize, Heap.store, update_apply, writeHeader]
  grind

theorem fills_mergeNext (hf : Fills hp a (b :: c :: cs)) :
    Fills (mergeNext hp b.addr c.addr) a
      ({ b with size := b.size + (headerSize + c.size) } :: cs) := by
  refine ⟨⟨hf.window.pos, hf.window.fits⟩, hf.lower, hf.tiles.merge, ?_⟩
  rw [mergeNext_mem hf]
  exact laid_writeHeader hf.tiles.merge hf.laid.2.2

theorem fills_coalesceForward (hf : Fills hp a (b :: bs)) (hfuel : bs.length < fuel) :
    Fills (coalesceForward fuel hp b.addr) a (absorb headerSize b bs) := by
  induction bs generalizing hp b fuel with
  | nil =>
    have hnext : hp.next b.addr = 0 := hf.laid.1.next_eq
    cases fuel with
    | zero => cases hfuel
    | succ fuel =>
      rw [coalesceForward, if_neg (fun h => h.2.1 hnext)]
      exact hf
  | cons c cs ih =>
    cases fuel with
    | zero => cases hfuel
    | succ fuel =>
      have hbpos := hf.addr_pos mem_cons_self
      have hcpos := hf.tail.addr_pos mem_cons_self
      have hnext : hp.next b.addr = c.addr := hf.laid.1.next_eq
      have hbfree : hp.isFree b.addr = b.free.toNat := hf.laid.1.free_eq
      have hcfree : hp.isFree c.addr = c.free.toNat := hf.laid.2.1.free_eq
      have hcond : (b.addr ≠ 0 ∧ hp.next b.addr ≠ 0 ∧ hp.isFree b.addr ≠ 0 ∧
          hp.isFree (hp.next b.addr) ≠ 0) ↔ (b.free && c.free) = true := by
        rw [hnext, hbfree, hcfree]
        cases b.free <;> cases c.free <;> simp [hbpos.ne', hcpos.ne']
      rw [coalesceForward, absorb]
      by_cases hboth : (b.free && c.free) = true
      · rw [if_pos (hcond.2 hboth), if_pos hboth, hnext,
          if_pos (hf.tail.headerOk mem_cons_self)]
        exact ih (fills_mergeNext hf) (lt_of_succ_lt_succ hfuel)
      · rw [if_neg (fun h => hboth (hcond.1 h)), if_neg hboth]
        exact hf

theorem mergeBefore_consts (fuel : ℕ) (hp : Heap) (header curr : ℕ) :
    (mergeBefore fuel hp header curr).physStart = hp.physStart ∧
      (mergeBefore fuel hp header curr).start = hp.start := by
  induction fuel generalizing curr with
  | zero => exact ⟨rfl, rfl⟩
  | succ fuel ih =>
    rw [mergeBefore]
    split_ifs
    · obtain ⟨hphys, hstart, -⟩ := coalesceForward_frame loopFuel hp curr
      exact ⟨hphys, hstart⟩
    · exact ih _
    · exact ⟨rfl, rfl⟩
    · exact ⟨rfl, rfl⟩

theorem mergeBefore_cons_of_ne {next header : ℕ} (hpos : b.addr ≠ 0) (hnext : hp.next b.addr = next)
    (hnz : next ≠ 0) (hok : headerOk hp b.addr = true) (hne : next ≠ header) :
    mergeBefore (fuel + 1) hp header b.addr = mergeBefore fuel hp header next := by
  rw [mergeBefore, hnext, if_pos ⟨hpos, hnz⟩, if_pos hok, if_neg hne]

theorem mergeBefore_eq_self (fuel : ℕ) (hf : Fills hp a bs) {header : ℕ} (hhead : header ≤ a) :
    mergeBefore fuel hp header (headAddr bs) = hp := by
  induction bs generalizing a fuel with
  | nil =>
    cases fuel with
    | zero => rfl
    | succ fuel => rfl
  | cons b bs ih =>
    cases fuel with
    | zero => rfl
    | succ fuel =>
      have hpos := hf.addr_pos mem_cons_self
      have hnext : hp.next b.addr = headAddr bs := hf.laid.1.next_eq
      cases bs with
      | nil => rw [headAddr, mergeBefore, if_neg (fun h => h.2 hnext)]
      | cons c cs =>
        have hcpos := hf.tail.addr_pos mem_cons_self
        have hca : c.addr = a + headerSize + b.size := hf.tiles.2.1
        have hh : headerSize = 16 := rfl
        rw [headAddr, mergeBefore_cons_of_ne hpos.ne' hnext hcpos.ne'
          (hf.headerOk mem_cons_self) (by change c.addr ≠ header; omega)]
        exact ih _ hf.tail (by omega)

theorem Fills.cons (hf : Fills hp (a + headerSize + b.size) bs) (hba : b.addr = a)
    (hlow : hp.physStart ≤ a) (hb : HeaderAt hp.mem b (headAddr bs)) : Fills hp a (b :: bs) where
  window := hf.window
  lower := hlow
  tiles := ⟨hba, hf.tiles⟩
  laid := ⟨hb, hf.laid⟩

theorem setIsFree_mem (hp : Heap) (header v x : ℕ) :
    (hp.setIsFree header v).mem x = if x = header + 12 then v else hp.mem x := by
  simp only [Heap.setIsFree, Heap.store, update_apply]

theorem fills_markFree (hf : Fills hp a (b :: bs)) :
    Fills (hp.setIsFree b.addr 1) a ({ b with free := true } :: bs) := by
  obtain ⟨hnext, hsize, hmagic, -⟩ := hf.laid.1
  have hmem : (hp.setIsFree b.addr 1).mem =
      writeHeader hp.mem { b with free := true } (headAddr bs) := by
    funext x
    rw [setIsFree_mem, writeHeader]
    grind
  refine ⟨⟨hf.window.pos, hf.window.fits⟩, hf.lower, hf.tiles, ?_⟩
  rw [hmem]
  exact laid_writeHeader hf.tiles hf.laid.2

def freedAt (hp : Heap) (header : ℕ) : Heap :=
  coalesceForward loopFuel (hp.setIsFree header 1) header

theorem fills_freedAt (hf : Fills hp a (b :: bs)) (hlen : bs.length < loopFuel) :
    Fills (freedAt hp b.addr) a (absorb headerSize { b with free := true } bs) :=
  fills_coalesceForward (fills_markFree hf) hlen

theorem freedAt_mem {header x : ℕ} (hx : x ≠ header) (hx' : x ≠ header + 4) :
    (freedAt hp header).mem x = (hp.setIsFree header 1).mem x :=
  (coalesceForward_frame loopFuel _ header).2.2 x hx hx'

theorem freedAt_physStart (hp : Heap) (header : ℕ) :
    (freedAt hp header).physStart = hp.physStart :=
  (coalesceForward_frame loopFuel (hp.setIsFree header 1) header).1

theorem freedAt_start (hp : Heap) (header : ℕ) : (freedAt hp header).start = hp.start :=
  (coalesceForward_frame loopFuel (hp.setIsFree header 1) header).2.1

theorem headerAt_freedAt {next : ℕ} (header : ℕ) (hb : HeaderAt hp.mem b next)
    (hlt : b.addr + headerSize ≤ header) : HeaderAt (freedAt hp header).mem b next := by
  refine hb.congr (fun x _ hx => ?_)
  rw [freedAt_mem (by omega) (by omega), setIsFree_mem, if_neg (by omega)]

theorem headerOk_congr {hp' : Heap} (hphys : hp'.physStart = hp.physStart)
    (hmagic : hp'.magic b.addr = hp.magic b.addr) : headerOk hp' b.addr = headerOk hp b.addr := by
  rw [headerOk, headerOk, headerInHeap, headerInHeap, hphys, hmagic]

theorem headAddr_absorb (b : Block) (bs : List Block) :
    headAddr (absorb headerSize b bs) = b.addr := by
  obtain ⟨size, rest, he⟩ := absorb_eq_cons headerSize b bs
  rw [he]
  rfl

theorem mergeBefore_freedAt_head (hf : Fills hp a (b :: bs)) (hlen : bs.length < loopFuel) :
    mergeBefore fuel (freedAt hp b.addr) b.addr b.addr = freedAt hp b.addr := by
  have hself := mergeBefore_eq_self fuel (fills_freedAt hf hlen) hf.tiles.1.le
  rwa [headAddr_absorb] at hself

/-- Both halves of `kfree` turn the chain `bs` from `a` on into `r`, and write only to the first two
words of its headers. -/
def Released (hp : Heap) (header fuel a : ℕ) (bs r : List Block) : Prop :=
  Fills (mergeBefore fuel (freedAt hp header) header (headAddr bs)) a r ∧
    ∀ x, (∀ d ∈ bs, x ≠ d.addr ∧ x ≠ d.addr + 4) →
      (mergeBefore fuel (freedAt hp header) header (headAddr bs)).mem x =
        (hp.setIsFree header 1).mem x

theorem released_head (hf : Fills hp a (b :: cs)) (hlen : cs.length < loopFuel) :
    Released hp b.addr fuel a (b :: cs) (absorb headerSize { b with free := true } cs) := by
  rw [Released, headAddr, mergeBefore_freedAt_head hf hlen]
  refine ⟨fills_freedAt hf hlen, fun x hx => ?_⟩
  obtain ⟨hx1, hx2⟩ := hx b mem_cons_self
  exact freedAt_mem hx1 hx2

variable {d : Block} {ds : List Block}

/-- The block before the freed one takes it in. -/
theorem released_before (hf : Fills hp a (b :: d :: ds)) (hlen : ds.length + 1 < loopFuel) :
    Released hp d.addr (fuel + 1) a (b :: d :: ds)
      (absorb headerSize b (absorb headerSize { d with free := true } ds)) := by
  have hba := hf.tiles.1
  have hda := hf.tiles.2.1
  have hfreed := fills_freedAt hf.tail (lt_of_succ_lt hlen)
  have hphys : (freedAt hp d.addr).physStart ≤ a := (freedAt_physStart hp d.addr).le.trans hf.lower
  have hbhead := headerAt_freedAt d.addr hf.laid.1 (by omega)
  have hfb : Fills (freedAt hp d.addr) a (b :: absorb headerSize { d with free := true } ds) :=
    hfreed.cons hba hphys (by rwa [headAddr_absorb])
  have hstep : mergeBefore (fuel + 1) (freedAt hp d.addr) d.addr b.addr =
      coalesceForward loopFuel (freedAt hp d.addr) b.addr := by
    have hnext : (freedAt hp d.addr).next b.addr = d.addr := hbhead.next_eq
    have hbpos := hf.addr_pos mem_cons_self
    have hdpos := hf.tail.addr_pos mem_cons_self
    rw [mergeBefore, hnext, if_pos ⟨hbpos.ne', hdpos.ne'⟩, if_pos (hfb.headerOk mem_cons_self),
      if_pos rfl]
  rw [Released, headAddr, hstep]
  have hshort := length_absorb_le headerSize { d with free := true } ds
  refine ⟨fills_coalesceForward hfb (by omega), fun x hx => ?_⟩
  obtain ⟨hxb1, hxb2⟩ := hx b mem_cons_self
  obtain ⟨hxd1, hxd2⟩ := hx d (.tail _ mem_cons_self)
  rw [(coalesceForward_frame loopFuel _ b.addr).2.2 x hxb1 hxb2, freedAt_mem hxd1 hxd2]

/-- A block further ahead stays as it is. -/
theorem released_cons {header : ℕ} (hf : Fills hp a (b :: d :: ds)) (hc : c ∈ d :: ds)
    (hca : c.addr = header) (hd : d.addr ≠ header)
    (h : Released hp header fuel (a + headerSize + b.size) (d :: ds)
      (release headerSize header (d :: ds))) :
    Released hp header (fuel + 1) a (b :: d :: ds)
      (b :: release headerSize header (d :: ds)) := by
  have hba := hf.tiles.1
  have hlow := (hf.tail.tiles.mem_bounds hc).1
  have hbhead := headerAt_freedAt header hf.laid.1 (by omega)
  have hok : headerOk (freedAt hp header) b.addr = true := by
    have hmagic : (freedAt hp header).magic b.addr = hp.magic b.addr :=
      hbhead.magic_eq.trans hf.laid.1.magic_eq.symm
    rw [headerOk_congr (freedAt_physStart hp header) hmagic]
    exact hf.headerOk mem_cons_self
  have hbpos := hf.addr_pos mem_cons_self
  have hdpos := hf.tail.addr_pos mem_cons_self
  rw [Released, headAddr, mergeBefore_cons_of_ne hbpos.ne' hbhead.next_eq hdpos.ne' hok hd]
  obtain ⟨htail, hframe⟩ := h
  have hphys := (mergeBefore_consts fuel (freedAt hp header) header d.addr).1
  rw [freedAt_physStart] at hphys
  have hbfinal : HeaderAt (mergeBefore fuel (freedAt hp header) header d.addr).mem b
      (headAddr (release headerSize header (d :: ds))) := by
    obtain ⟨size, rest, he⟩ := release_eq_cons headerSize ds hd
    rw [he]
    refine hf.laid.1.congr (fun x _ hx => ?_)
    have hout : ∀ y ∈ d :: ds, x ≠ y.addr ∧ x ≠ y.addr + 4 := by
      intro y hy
      have := (hf.tail.tiles.mem_bounds hy).1
      omega
    apply (hframe x hout).trans
    rw [setIsFree_mem, if_neg (by omega)]
  refine ⟨htail.cons hba (hphys.le.trans hf.lower) hbfinal, fun x hx => ?_⟩
  exact hframe x (fun y hy => hx y (.tail _ hy))

/-- Both halves of `kfree` over the part of the chain from `a` on that holds the freed block. -/
theorem fills_release {header : ℕ} (hf : Fills hp a bs) (hc : c ∈ bs) (hca : c.addr = header)
    (hlen : bs.length < loopFuel) (hfuel : bs.length ≤ fuel) :
    Released hp header fuel a bs (release headerSize header bs) := by
  refine release_rule (P := fun bs r => ∀ a fuel, Fills hp a bs → c ∈ bs → bs.length < loopFuel →
    bs.length ≤ fuel → Released hp header fuel a bs r) (fun _ _ _ hc => nomatch hc) ?_ ?_ ?_ bs a
    fuel hf hc hlen hfuel
  · rintro b cs rfl a fuel hf - hlen -
    exact released_head hf (lt_of_succ_lt hlen)
  · rintro b d ds - rfl a fuel hf - hlen hfuel
    obtain ⟨fuel, rfl⟩ := exists_eq_succ_of_ne_zero (zero_lt_of_lt hfuel).ne'
    exact released_before hf (lt_of_succ_lt hlen)
  · intro b cs hb hhead ih a fuel hf hc hlen hfuel
    obtain ⟨fuel, rfl⟩ := exists_eq_succ_of_ne_zero (zero_lt_of_lt hfuel).ne'
    have hc' : c ∈ cs := (mem_cons.1 hc).resolve_left (fun h => hb (h ▸ hca))
    cases cs with
    | nil => cases hc'
    | cons d ds =>
      exact released_cons hf hc' hca (hhead d rfl)
        (ih _ fuel hf.tail hc' (lt_of_succ_lt hlen) (le_of_succ_le_succ hfuel))

end MicroK.Kheap
