import MicroK.ExtVolume

/-!
# Path resolution is safe on every image

Whatever is on the device, a lookup ends, stays inside its buffers and frees them. Every access to
the device is where the driver's own formula for the item puts it; `Follows` states these formulas,
with the one of the group descriptors in 32 bits.
-/

namespace MicroK.Ext

open List Image Nat

structure DirEntry where
  inode : ℕ
  recLen : ℕ
  nameLen : ℕ
  fileType : ℕ
  deriving DecidableEq

def sizeofDirEntry : ℕ := 8

def ftDir : ℕ := 2

def extPathMax : ℕ := 64

variable {σ : Type}

def readDirEntry (block : Image) (pos : ℕ) : Outcome DirEntry := do
  let inode ← block.readLe pos 4
  let recLen ← block.readLe (pos + 4) 2
  let nameLen ← block.readLe (pos + 6) 1
  let fileType ← block.readLe (pos + 7) 1
  pure ⟨inode, recLen, nameLen, fileType⟩

def dirEntryValid (pos : ℕ) (entry : DirEntry) (blockSize : ℕ) : Bool :=
  if entry.recLen < sizeofDirEntry then false
  else if blockSize < u32 (pos + entry.recLen) then false
  else if entry.recLen < sizeofDirEntry + entry.nameLen then false
  else true

def nameEquals (name : List UInt8) (block : Image) (pos entryLen : ℕ) : Outcome Bool := do
  if name.length ≠ entryLen then pure false
  else
    let entryName ← block.readBytes (pos + sizeofDirEntry) entryLen
    pure (name = entryName)

def entryMatches (name : List UInt8) (block : Image) (pos : ℕ) (entry : DirEntry) : Outcome Bool :=
  if entry.inode ≠ 0 ∧ entry.nameLen ≠ 0 then nameEquals name block pos entry.nameLen
  else pure false

section

variable (disk : Disk σ) (env : Env σ) (m : Mount)

def scanBlock (name : List UInt8) (block : Image) : ℕ → ℕ → Reader σ (Option (Inode × ℕ))
  | 0, _ => Checked.endless
  | fuel + 1, pos => do
    if m.blockSize < pos + sizeofDirEntry then pure none
    else
      let entry ← Checked.lift (readDirEntry block pos)
      if entry.recLen = 0 then pure none
      else if dirEntryValid pos entry m.blockSize = false then pure none
      else
        if ← Checked.lift (entryMatches name block pos entry) then
          match ← readInode disk m entry.inode with
          | some inode => pure (some (inode, entry.fileType))
          | none => scanBlock name block fuel (pos + entry.recLen)
        else scanBlock name block fuel (pos + entry.recLen)

def scanBlocks (dir : Inode) (name : List UInt8) :
    ℕ → ℕ → Image → Image → Reader σ (Option (Inode × ℕ))
  | 0, _, _, _ => pure none
  | left + 1, b, blockBuf, indirectBuf => do
    let (physBlock, indirectBuf) ← inodeBlock disk m dir b indirectBuf
    if physBlock = 0 then scanBlocks dir name left (b + 1) blockBuf indirectBuf
    else
      let (ok, blockBuf) ← readBlock disk m physBlock blockBuf
      if ok = false then scanBlocks dir name left (b + 1) blockBuf indirectBuf
      else
        match ← scanBlock disk m name blockBuf m.blockSize 0 with
        | some found => pure (some found)
        | none => scanBlocks dir name left (b + 1) blockBuf indirectBuf

/-- The number of blocks that a size takes, computed in 32 bits. -/
def sizeBlocks (size : ℕ) : ℕ := u32 (size + m.blockSize - 1) / m.blockSize

def findEntryInDir (dir : Inode) (filename : List UInt8) : Reader σ (Option (Inode × ℕ)) := do
  match ← kmalloc env m.blockSize with
  | none => pure none
  | some (blockNum, blockBuf) =>
    match ← kmalloc env m.blockSize with
    | none => do
      kfree blockNum
      pure none
    | some (indirectNum, indirectBuf) => do
      let found ← scanBlocks disk m dir filename (sizeBlocks m dir.size) 0 blockBuf indirectBuf
      kfree indirectNum
      kfree blockNum
      pure found

def slash : UInt8 := 0x2F

/-- The rest of a component, behind the bytes that are in the buffer. Nothing is found when it is
too long for the buffer. -/
def takeComponent : List UInt8 → List UInt8 → Outcome (Option (List UInt8 × List UInt8))
  | [], component => if component.length < extPathMax then .ok (some (component, [])) else .fault
  | c :: path, component =>
    if c = slash then
      if component.length < extPathMax then .ok (some (component, c :: path)) else .fault
    else if extPathMax ≤ component.length + 1 then .ok none
    else if component.length < extPathMax then takeComponent path (component ++ [c])
    else .fault

inductive NextComponent
  | tooLong
  | finished
  | found (component rest : List UInt8)

def nextPathComponent (path : List UInt8) : Outcome NextComponent :=
  match path.dropWhile (· = slash) with
  | [] => .ok .finished
  | c :: rest => do
    match ← takeComponent (c :: rest) [] with
    | none => pure .tooLong
    | some (component, rest) => pure (.found component rest)

def resolveLoop : ℕ → Inode → ℕ → List UInt8 → Reader σ (Option (Inode × ℕ))
  | 0, _, _, _ => Checked.endless
  | fuel + 1, current, type, path => do
    match ← Checked.lift (nextPathComponent path) with
    | .tooLong => pure none
    | .finished => pure (some (current, type))
    | .found component rest =>
      if type ≠ ftDir then pure none
      else
        match ← findEntryInDir disk env m current component with
        | none => pure none
        | some (next, type) => resolveLoop fuel next type rest

def resolvePath (path : List UInt8) : Reader σ (Option (Inode × ℕ)) := do
  if path = [] then pure none
  else
    match ← readInode disk m 2 with
    | none => pure none
    | some root => resolveLoop disk env m (path.length + 1) root ftDir path

end

open Checked

def Follows (m : Mount) (a : Access) : Prop :=
  match a.item with
  | .bootSector => a.offset = 0 ∧ a.size = 512
  | .superblock => a.offset = 1024 ∧ a.size = superblockSize
  | .group g => a.offset = u32 (gdTable m + u32 (g * 32)) ∧ a.size = 32
  | .inode table index => a.offset = table * m.blockSize + index * m.inodeSize ∧
      a.offset < 2 ^ 32 ∧ a.size = sizeofInode
  | .block b => a.offset = b * m.blockSize ∧ a.offset < 2 ^ 32 ∧ a.size = m.blockSize

/-- The buffers `live` are allocated, and all accesses since `before` follow the formulas. -/
structure Clean {σ : Type} (m : Mount) (before : List Access) (live : List ℕ) (s : Session σ) :
    Prop where
  live_eq : s.live = live
  follows : ∃ l, s.accesses = l ++ before ∧ ∀ a ∈ l, Follows m a

variable {σ : Type} {disk : Disk σ} {env : Env σ} {m : Mount} {before : List Access} {live : List ℕ}

theorem total_readDevice {item : Item} {offset size : ℕ} {buffer : Image}
    (hsize : size ≤ buffer.size) (hfollows : Follows m ⟨item, offset, size⟩) :
    Total (Clean m before live) (readDevice disk item offset size buffer) fun r s =>
      r.2.size = buffer.size ∧ Clean m before live s := by
  intro s hs
  unfold readDevice
  cases hread : disk.read with
  | none => exact ⟨_, s, rfl, rfl, hs⟩
  | some read =>
    dsimp only
    by_cases hzero : disk.blockSize = 0
    · rw [if_pos hzero]
      exact ⟨_, s, rfl, rfl, hs⟩
    have hle := disk.read_le read hread s.dev offset size
    rw [if_neg hzero, if_neg (by omega)]
    obtain ⟨l, hl, hall⟩ := hs.follows
    exact ⟨_, _, rfl, rfl, hs.live_eq, _ :: l, congrArg _ hl,
      forall_mem_cons.mpr ⟨hfollows, hall⟩⟩

theorem total_readBlock (block : ℕ) {buffer : Image} (hsize : buffer.size = m.blockSize) :
    Total (Clean m before live) (readBlock disk m block buffer) fun r s =>
      r.2.size = m.blockSize ∧ Clean m before live s := by
  unfold readBlock blockOffsetChecked
  refine Total.ite (fun _ => Total.pure fun s hs => ⟨hsize, hs⟩) fun _ => ?_
  by_cases hfar : 0xFFFFFFFF < block * m.blockSize
  · rw [if_pos hfar]
    exact Total.pure fun s hs => ⟨hsize, hs⟩
  rw [if_neg hfar]
  refine Total.bind (total_readDevice hsize.ge ⟨rfl, by dsimp only; omega, rfl⟩) fun r => ?_
  exact Total.pure fun s hs => ⟨hs.1.trans hsize, hs.2⟩

theorem total_readGroupDesc (group : ℕ) :
    Total (Clean m before live) (readGroupDesc disk m group) fun _ => Clean m before live := by
  refine Total.guard fun _ =>
    Total.guard fun _ => ?_
  exact Total.bind (total_readDevice le_rfl ⟨rfl, rfl⟩) fun r => Total.pure fun s hs => hs.2

theorem total_readInode (inodeNum : ℕ) :
    Total (Clean m before live) (readInode disk m inodeNum) fun _ => Clean m before live := by
  unfold readInode blockOffsetChecked
  refine Total.guard fun _ =>
    Total.guard fun _ => ?_
  refine Total.bind (total_readGroupDesc _) fun table => ?_
  cases table with
  | none => exact Total.done
  | some table =>
    dsimp only
    by_cases hfar : 0xFFFFFFFF < table * m.blockSize
    · rw [if_pos hfar]
      exact Total.done
    rw [if_neg hfar]
    refine Total.guard fun hnear => ?_
    refine Total.bind (total_readDevice le_rfl ⟨rfl, ?_, rfl⟩) fun r => Total.pure fun s hs => hs.2
    exact Nat.lt_of_not_le fun h => hnear (Nat.lt_of_succ_le h)

theorem total_readPointer (block : ℕ) {index : ℕ} (hindex : index < entriesPerBlock m)
    {scratch : Image} (hsize : scratch.size = m.blockSize) :
    Total (Clean m before live) (readPointer disk m block index scratch) fun r s =>
      r.2.size = m.blockSize ∧ Clean m before live s := by
  have hfits : 4 * index + 4 ≤ m.blockSize := by
    unfold entriesPerBlock at hindex
    omega
  refine Total.ite (fun _ => Total.pure fun s hs => ⟨hsize, hs⟩) fun _ => ?_
  refine Total.bind (total_readBlock block hsize) fun ⟨ok, scratch⟩ => Total.of_fact fun hsize => ?_
  refine Total.ite (fun _ => ?_) fun _ => Total.pure fun s hs => ⟨hsize, hs⟩
  refine Total.bind (Total.lift (ends_readLe (hsize ▸ hfits))) fun pointer => ?_
  exact Total.pure fun s hs => ⟨hsize, hs.2⟩

theorem total_inodeBlock (inode : Inode) (logical : ℕ) {scratch : Image}
    (hsize : scratch.size = m.blockSize) :
    Total (Clean m before live) (inodeBlock disk m inode logical scratch) fun r s =>
      r.2.size = m.blockSize ∧ Clean m before live s := by
  have hpos := m.entriesPerBlock_pos
  dsimp only [inodeBlock]
  rw [m.doubleSpan_eq]
  split_ifs with hdirect hsingle hdouble hbeyond
  · exact Total.pure fun s hs => ⟨hsize, hs⟩
  · exact total_readPointer _ hsingle hsize
  · refine Total.bind (total_readPointer _ (Nat.div_lt_of_lt_mul hdouble) hsize)
      fun ⟨first, scratch⟩ => Total.of_fact fun hsize => ?_
    exact total_readPointer first (mod_lt _ hpos) hsize
  · exact Total.pure fun s hs => ⟨hsize, hs⟩
  · refine Total.bind (total_readPointer _ (Nat.lt_of_not_le hbeyond) hsize)
      fun ⟨first, scratch⟩ => Total.of_fact fun hsize => ?_
    refine Total.bind (total_readPointer first (Nat.div_lt_of_lt_mul ?_) hsize)
      fun ⟨second, scratch⟩ => Total.of_fact fun hsize => ?_
    · exact Nat.mod_lt _ (Nat.mul_pos hpos hpos)
    · exact total_readPointer second (Nat.mod_lt _ hpos) hsize

variable {block : Image} {pos : ℕ}

theorem ends_readDirEntry (h : pos + sizeofDirEntry ≤ block.size) :
    (readDirEntry block pos).Ends fun entry => entry.recLen < 2 ^ 16 := by
  unfold sizeofDirEntry at h
  refine Outcome.ends_bind (ends_readLe (by omega)) fun _ _ => ?_
  refine Outcome.ends_bind (ends_readLe (by omega)) fun recLen hrecLen => ?_
  refine Outcome.ends_bind (ends_readLe (by omega)) fun _ _ => ?_
  exact Outcome.ends_bind (ends_readLe (by omega)) fun _ _ => Outcome.ends_pure hrecLen

/-- An entry that passes the check makes progress and has its name inside the block. -/
theorem dirEntryValid_bounds {entry : DirEntry} (hpos : pos ≤ m.blockSize)
    (hlen : entry.recLen < 2 ^ 16) (h : ¬ dirEntryValid pos entry m.blockSize = false) :
    sizeofDirEntry + entry.nameLen ≤ entry.recLen ∧ pos + entry.recLen ≤ m.blockSize := by
  have hle := m.blockSize_le
  unfold dirEntryValid at h
  rw [u32_of_lt (by omega)] at h
  split_ifs at h with h₁ h₂ h₃
  · exact absurd rfl h
  · exact absurd rfl h
  · exact absurd rfl h
  · exact ⟨by omega, by omega⟩

theorem ends_entryMatches (name : List UInt8) {entry : DirEntry}
    (h : pos + sizeofDirEntry + entry.nameLen ≤ block.size) :
    (entryMatches name block pos entry).Ends fun _ => True := by
  refine Outcome.ends_ite (fun _ => ?_) fun _ => Outcome.ends_pure trivial
  refine Outcome.ends_ite (fun _ => Outcome.ends_pure trivial) fun _ => ?_
  exact Outcome.ends_bind (ends_readBytes h) fun _ _ => Outcome.ends_pure trivial

/-- Every entry that is passed takes at least eight bytes of the block. -/
theorem total_scanBlock (name : List UInt8) (hsize : block.size = m.blockSize) {fuel : ℕ}
    (hpos : pos ≤ m.blockSize) (hfuel : m.blockSize < pos + 8 * fuel) :
    Total (Clean m before live) (scanBlock disk m name block fuel pos)
      fun _ => Clean m before live := by
  induction fuel generalizing pos with
  | zero => omega
  | succ fuel ih =>
    refine Total.guard fun hroom => ?_
    have hentry : pos + sizeofDirEntry ≤ block.size := hsize ▸ Nat.le_of_not_lt hroom
    refine Total.lift_then (ends_readDirEntry hentry) fun entry hlen => ?_
    refine Total.guard fun _ => ?_
    refine Total.guard fun hvalid => ?_
    obtain ⟨hname, hnext⟩ := dirEntryValid_bounds hpos hlen hvalid
    have hgo : Total (Clean m before live) (scanBlock disk m name block fuel (pos + entry.recLen))
        fun _ => Clean m before live := by
      unfold sizeofDirEntry at hname
      exact ih hnext (by omega)
    refine Total.lift_then (ends_entryMatches name (by omega)) fun hit _ =>
      Total.ite (fun _ => ?_) fun _ => hgo
    refine Total.bind (total_readInode _) fun found => ?_
    cases found with
    | some inode => exact Total.done
    | none => exact hgo

theorem total_scanBlocks (dir : Inode) (name : List UInt8) {left b : ℕ}
    {blockBuf indirectBuf : Image}
    (hblock : blockBuf.size = m.blockSize) (hindirect : indirectBuf.size = m.blockSize) :
    Total (Clean m before live) (scanBlocks disk m dir name left b blockBuf indirectBuf)
      fun _ => Clean m before live := by
  induction left generalizing b blockBuf indirectBuf with
  | zero => exact Total.done
  | succ left ih =>
    refine Total.bind (total_inodeBlock dir b hindirect) fun ⟨physBlock, indirectBuf⟩ =>
      Total.of_fact fun hindirect => ?_
    refine Total.ite (fun _ => ih hblock hindirect) fun _ => ?_
    refine Total.bind (total_readBlock physBlock hblock) fun ⟨ok, blockBuf⟩ =>
      Total.of_fact fun hblock => ?_
    refine Total.ite (fun _ => ih hblock hindirect) fun _ => ?_
    refine Total.bind (total_scanBlock name hblock (zero_le _) (by
      have hpos := m.blockSize_pos
      omega)) fun found => ?_
    cases found with
    | some found => exact Total.done
    | none => exact ih hblock hindirect

theorem total_kmalloc (size : ℕ) : Total (Clean m before live) (kmalloc env size) fun r s =>
    match r with
    | none => Clean m before live s
    | some (n, buffer) => buffer.size = size ∧ Clean m before (n :: live) s := by
  intro s hs
  unfold kmalloc
  by_cases hok : env.kmallocOk s.allocs = true
  · rw [if_pos hok]
    exact ⟨_, _, rfl, rfl, congrArg _ hs.live_eq, hs.follows⟩
  · rw [if_neg hok]
    exact ⟨_, _, rfl, hs.live_eq, hs.follows⟩

theorem total_kfree (n : ℕ) :
    Total (Clean m before (n :: live)) (kfree n : Reader σ Unit) fun _ => Clean m before live := by
  intro s hs
  unfold kfree
  rw [hs.live_eq, if_pos mem_cons_self]
  exact ⟨(), _, rfl, erase_cons_head n live, hs.follows⟩

/-- A lookup in a directory frees both of its buffers, whatever happens. -/
theorem total_findEntryInDir (dir : Inode) (filename : List UInt8) :
    Total (Clean m before live) (findEntryInDir disk env m dir filename)
      fun _ => Clean m before live := by
  refine Total.bind (total_kmalloc m.blockSize) fun got => ?_
  rcases got with _ | ⟨blockNum, blockBuf⟩
  · exact Total.done
  refine Total.of_fact fun hblock => Total.bind (total_kmalloc m.blockSize) fun got => ?_
  rcases got with _ | ⟨indirectNum, indirectBuf⟩
  · exact Total.bind (total_kfree blockNum) fun _ => Total.done
  refine Total.of_fact fun hindirect => ?_
  refine Total.bind (total_scanBlocks dir filename hblock hindirect) fun found => ?_
  refine Total.bind (total_kfree indirectNum) fun _ => ?_
  exact Total.bind (total_kfree blockNum) fun _ => Total.done

variable (path : List UInt8)

/-- The component fits its buffer, and something of the path is used up. -/
theorem ends_takeComponent {component : List UInt8}
    (h : component.length < extPathMax) : (takeComponent path component).Ends fun r =>
      ∀ name rest, r = some (name, rest) → rest.length ≤ path.length := by
  induction path generalizing component with
  | nil =>
    rw [takeComponent, if_pos h]
    refine Outcome.ends_pure fun name rest hr => ?_
    cases hr
    exact le_rfl
  | cons c path ih =>
    rw [takeComponent, if_pos h, if_pos h]
    refine Outcome.ends_ite (fun _ => Outcome.ends_pure fun name rest hr => ?_) fun _ =>
      Outcome.ends_ite (fun _ => Outcome.ends_pure nofun) fun hroom => ?_
    · cases hr
      exact le_rfl
    · have hlength : (component ++ [c]).length < extPathMax := by
        rw [length_append, length_singleton]
        omega
      obtain ⟨r, hr, hrest⟩ := ih hlength
      exact ⟨r, hr, fun name rest h => (hrest name rest h).trans (le_succ _)⟩

theorem ends_nextPathComponent : (nextPathComponent path).Ends fun r =>
    ∀ name rest, r = .found name rest → rest.length < path.length := by
  unfold nextPathComponent
  have hle : (path.dropWhile (· = slash)).length ≤ path.length := (dropWhile_sublist _).length_le
  cases hdrop : path.dropWhile (· = slash) with
  | nil => exact Outcome.ends_pure nofun
  | cons c tail =>
    rw [hdrop, length_cons] at hle
    have hc : c ≠ slash := by
      have hhead := head?_dropWhile_not (· = slash) path
      rw [hdrop] at hhead
      simpa using hhead
    dsimp only
    rw [takeComponent, if_neg hc, if_neg (by decide), if_pos (by decide)]
    refine Outcome.ends_bind (ends_takeComponent tail (show 1 < extPathMax by decide))
      fun r hr => ?_
    rcases r with _ | ⟨name, rest⟩
    · exact Outcome.ends_pure nofun
    · refine Outcome.ends_pure fun name' rest' h => ?_
      obtain ⟨rfl, rfl⟩ := NextComponent.found.inj h
      exact (lt_succ_of_le (hr name rest rfl)).trans_le hle

theorem total_resolveLoop {fuel : ℕ} (current : Inode) (type : ℕ) {path : List UInt8}
    (hfuel : path.length < fuel) :
    Total (Clean m before live) (resolveLoop disk env m fuel current type path)
      fun _ => Clean m before live := by
  induction fuel generalizing current type path with
  | zero => omega
  | succ fuel ih =>
    refine Total.lift_then (ends_nextPathComponent path) fun next hnext => ?_
    cases next with
    | tooLong => exact Total.done
    | finished => exact Total.done
    | found component rest =>
      have hrest := hnext component rest rfl
      refine Total.guard fun _ => ?_
      refine Total.bind (total_findEntryInDir current component) fun found => ?_
      rcases found with _ | ⟨next, type⟩
      · exact Total.done
      · exact ih next type (by omega)

theorem total_resolvePath :
    Total (Clean m before live) (resolvePath disk env m path) fun _ => Clean m before live := by
  refine Total.guard fun _ => ?_
  refine Total.bind (total_readInode 2) fun root => ?_
  cases root with
  | none => exact Total.done
  | some root => exact total_resolveLoop root ftDir (lt_succ_self _)

/-- On every image a path is resolved, or not found, without an access outside a buffer, and all
buffers are free again afterwards; so it is for the lookup of any name in any directory. -/
theorem resolvePath_safe (disk : Disk σ) (env : Env σ) (m : Mount) (path filename : List UInt8)
    (dir : Inode) (s : Session σ) :
    (∃ r s', resolvePath disk env m path s = .ok (r, s') ∧ s'.live = s.live) ∧
      ∃ r s', findEntryInDir disk env m dir filename s = .ok (r, s') ∧ s'.live = s.live := by
  have hs : Clean m s.accesses s.live s := ⟨rfl, [], rfl, nofun⟩
  constructor
  · obtain ⟨r, s', hrun, hclean⟩ := total_resolvePath path s hs
    exact ⟨r, s', hrun, hclean.live_eq⟩
  · obtain ⟨r, s', hrun, hclean⟩ := total_findEntryInDir dir filename s hs
    exact ⟨r, s', hrun, hclean.live_eq⟩

end MicroK.Ext
