import MicroK.ExtSafety

/-!
# Files and listings

`extfs_load_file`, and the commands of the shell that print a file and list the root directory. All
of them end on every image, stay inside their buffers and free them.
-/

namespace MicroK.Ext

open Checked Total

section

variable {σ : Type} (disk : Disk σ) (env : Env σ) (m : Mount)

/-- The logical blocks of a file from block `b` on, with `left` of them to go: the number of bytes
that have been copied, and the buffer. -/
def loadBlocks (inode : Inode) (size : ℕ) :
    ℕ → ℕ → ℕ → Image → Image → Image → Reader σ (ℕ × Image)
  | 0, _, copied, buffer, _, _ => pure (copied, buffer)
  | left + 1, b, copied, buffer, blockBuf, indirectBuf => do
    if size ≤ copied then pure (copied, buffer)
    else
      let (physBlock, indirectBuf) ← inodeBlock disk m inode b indirectBuf
      if physBlock = 0 then pure (copied, buffer)
      else
        let (ok, blockBuf) ← readBlock disk m physBlock blockBuf
        if ok = false then pure (copied, buffer)
        else
          let chunk := min (size - copied) m.blockSize
          let bytes ← Checked.lift (blockBuf.readBytes 0 chunk)
          let buffer ← Checked.lift (buffer.store copied bytes)
          loadBlocks inode size left (b + 1) (copied + chunk) buffer blockBuf indirectBuf

/-- The size of the file, or nothing where the C function returns zero, and the buffer. -/
def loadFile (filename : List UInt8) (buffer : Image) : Reader σ (Option ℕ × Image) := do
  match ← resolvePath disk env m filename with
  | none => pure (none, buffer)
  | some (inode, type) =>
    if type = ftDir then pure (none, buffer)
    else if buffer.size < inode.size then pure (none, buffer)
    else
      match ← kmalloc env m.blockSize with
      | none => pure (none, buffer)
      | some (blockNum, blockBuf) =>
        match ← kmalloc env m.blockSize with
        | none => do
          kfree blockNum
          pure (none, buffer)
        | some (indirectNum, indirectBuf) => do
          let (copied, buffer) ← loadBlocks disk m inode inode.size (sizeBlocks m inode.size) 0 0
            buffer blockBuf indirectBuf
          kfree indirectNum
          kfree blockNum
          pure (if copied ≠ inode.size then none else some inode.size, buffer)

/-- The text that is printed. -/
def extfsCat (filename : List UInt8) : Reader σ (Option (List UInt8)) := do
  let maxSize := 4096
  match ← kmalloc env (maxSize + 1) with
  | none => pure none
  | some (fileNum, fileBuf) =>
    match ← loadFile disk env m filename ⟨maxSize, fileBuf.byte⟩ with
    | (none, _) => do
      kfree fileNum
      pure none
    | (some size, loaded) => do
      let fileBuf ← Checked.lift (Image.store ⟨maxSize + 1, loaded.byte⟩ size [0])
      kfree fileNum
      pure (some (fileBuf.bytes 0 size))

inductive Shown
  | dir
  | bytes (size : ℕ)
  | unknown

structure Row where
  name : List UInt8
  shown : Shown

def listEntry (block : Image) (pos : ℕ) (entry : DirEntry) : Reader σ (List Row) := do
  if entry.inode ≠ 0 ∧ entry.nameLen ≠ 0 then
    let name ← Checked.lift (block.readBytes (pos + sizeofDirEntry) (min entry.nameLen 63))
    if entry.fileType = ftDir then pure [⟨name, .dir⟩]
    else
      match ← readInode disk m entry.inode with
      | some inode => pure [⟨name, .bytes inode.size⟩]
      | none => pure [⟨name, .unknown⟩]
  else pure []

def listBlock (block : Image) : ℕ → ℕ → List Row → Reader σ (List Row)
  | 0, _, _ => Checked.endless
  | fuel + 1, pos, rows => do
    if m.blockSize < pos + sizeofDirEntry then pure rows
    else
      let entry ← Checked.lift (readDirEntry block pos)
      if entry.recLen = 0 then pure rows
      else if dirEntryValid pos entry m.blockSize = false then pure rows
      else
        let row ← listEntry disk m block pos entry
        listBlock block fuel (pos + entry.recLen) (rows ++ row)

def listBlocks (dir : Inode) : ℕ → ℕ → Image → Image → List Row → Reader σ (List Row)
  | 0, _, _, _, rows => pure rows
  | left + 1, b, blockBuf, indirectBuf, rows => do
    let (physBlock, indirectBuf) ← inodeBlock disk m dir b indirectBuf
    if physBlock = 0 then listBlocks dir left (b + 1) blockBuf indirectBuf rows
    else
      let (ok, blockBuf) ← readBlock disk m physBlock blockBuf
      if ok = false then listBlocks dir left (b + 1) blockBuf indirectBuf rows
      else
        let rows ← listBlock disk m blockBuf m.blockSize 0 rows
        listBlocks dir left (b + 1) blockBuf indirectBuf rows

/-- The rows of the listing, or nothing when the root cannot be read or memory is short. -/
def extfsLs : Reader σ (Option (List Row)) := do
  match ← readInode disk m 2 with
  | none => pure none
  | some root =>
    match ← kmalloc env m.blockSize with
    | none => pure none
    | some (blockNum, blockBuf) =>
      match ← kmalloc env m.blockSize with
      | none => do
        kfree blockNum
        pure none
      | some (indirectNum, indirectBuf) => do
        let rows ← listBlocks disk m root (sizeBlocks m root.size) 0 blockBuf indirectBuf []
        kfree indirectNum
        kfree blockNum
        pure (some rows)

end

variable {σ : Type} {disk : Disk σ} {env : Env σ} {m : Mount} {before : List Access} {live : List ℕ}

theorem total_loadBlocks (inode : Inode) {size left b copied : ℕ}
    {buffer blockBuf indirectBuf : Image} (hbuffer : size ≤ buffer.size)
    (hblock : blockBuf.size = m.blockSize) (hindirect : indirectBuf.size = m.blockSize) :
    Total (Clean m before live)
      (loadBlocks disk m inode size left b copied buffer blockBuf indirectBuf)
      fun _ => Clean m before live := by
  induction left generalizing b copied buffer blockBuf indirectBuf with
  | zero => exact done
  | succ left ih =>
    refine guard fun hmore => ?_
    refine Total.bind (total_inodeBlock inode b hindirect) fun ⟨physBlock, indirectBuf⟩ =>
      of_fact fun hindirect => ?_
    refine guard fun _ => ?_
    refine Total.bind (total_readBlock physBlock hblock) fun ⟨ok, blockBuf⟩ =>
      of_fact fun hblock => ?_
    refine guard fun _ => ?_
    refine lift_then (Image.ends_readBytes ?_) fun bytes hlen => ?_
    · rw [zero_add, hblock]
      exact min_le_right _ _
    refine lift_then (Image.ends_store ?_) fun stored hstored => ?_
    · rw [hlen]
      omega
    · exact ih (hstored ▸ hbuffer) hblock hindirect

theorem total_loadFile (filename : List UInt8) (buffer : Image) :
    Total (Clean m before live) (loadFile disk env m filename buffer)
      fun r s => (∀ size, r.1 = some size → size ≤ buffer.size) ∧ Clean m before live s := by
  have hnone : Total (Clean m before live) (pure (none, buffer) : Reader σ (Option ℕ × Image))
      fun r s => (∀ size, r.1 = some size → size ≤ buffer.size) ∧ Clean m before live s :=
    Total.pure fun s hs => ⟨nofun, hs⟩
  refine Total.bind (total_resolvePath filename) fun found => ?_
  rcases found with _ | ⟨inode, type⟩
  · exact hnone
  refine Total.ite (fun _ => hnone) fun _ => Total.ite (fun _ => hnone) fun hfits => ?_
  refine Total.bind (total_kmalloc m.blockSize) fun got => ?_
  rcases got with _ | ⟨blockNum, blockBuf⟩
  · exact hnone
  refine of_fact fun hblock => Total.bind (total_kmalloc m.blockSize) fun got => ?_
  rcases got with _ | ⟨indirectNum, indirectBuf⟩
  · exact Total.bind (total_kfree blockNum) fun _ => hnone
  refine of_fact fun hindirect => ?_
  refine Total.bind (total_loadBlocks inode (Nat.le_of_not_lt hfits) hblock hindirect) fun r => ?_
  refine Total.bind (total_kfree indirectNum) fun _ => ?_
  refine Total.bind (total_kfree blockNum) fun _ => Total.pure fun s hs => ⟨?_, hs⟩
  intro size hsize
  dsimp only at hsize
  split at hsize
  · cases hsize
  · cases hsize
    exact Nat.le_of_not_lt hfits

theorem total_extfsCat (filename : List UInt8) :
    Total (Clean m before live) (extfsCat disk env m filename) fun _ => Clean m before live := by
  refine Total.bind (total_kmalloc 4097) fun got => ?_
  rcases got with _ | ⟨fileNum, fileBuf⟩
  · exact done
  refine of_fact fun _ => Total.bind (total_loadFile filename _) fun ⟨size, loaded⟩ =>
    of_fact fun hsize => ?_
  cases size with
  | none => exact Total.bind (total_kfree fileNum) fun _ => done
  | some size =>
    have hle : size + 1 ≤ 4097 := Nat.succ_le_succ (hsize size rfl)
    refine lift_then (Image.ends_store hle) fun _ _ => ?_
    exact Total.bind (total_kfree fileNum) fun _ => done

theorem total_listBlock {block : Image} (hsize : block.size = m.blockSize) {fuel pos : ℕ}
    {rows : List Row} (hpos : pos ≤ m.blockSize) (hfuel : m.blockSize < pos + 8 * fuel) :
    Total (Clean m before live) (listBlock disk m block fuel pos rows)
      fun _ => Clean m before live := by
  induction fuel generalizing pos rows with
  | zero => omega
  | succ fuel ih =>
    refine guard fun hroom => ?_
    have hentry : pos + sizeofDirEntry ≤ block.size := hsize ▸ Nat.le_of_not_lt hroom
    refine lift_then (ends_readDirEntry hentry) fun entry hlen => ?_
    refine guard fun _ => guard fun hvalid => ?_
    obtain ⟨hname, hnext⟩ := dirEntryValid_bounds hpos hlen hvalid
    have hrow : Total (Clean m before live) (listEntry disk m block pos entry)
        fun _ => Clean m before live := by
      refine Total.ite (fun _ => ?_) fun _ => done
      have hread : pos + sizeofDirEntry + min entry.nameLen 63 ≤ block.size := by omega
      refine lift_then (Image.ends_readBytes hread) fun name _ => guard fun _ => ?_
      refine Total.bind (total_readInode entry.inode) fun found => ?_
      cases found with
      | some inode => exact done
      | none => exact done
    unfold sizeofDirEntry at hname
    exact Total.bind hrow fun row => ih hnext (by omega)

theorem total_listBlocks (dir : Inode) {left b : ℕ} {blockBuf indirectBuf : Image} {rows : List Row}
    (hblock : blockBuf.size = m.blockSize) (hindirect : indirectBuf.size = m.blockSize) :
    Total (Clean m before live) (listBlocks disk m dir left b blockBuf indirectBuf rows)
      fun _ => Clean m before live := by
  induction left generalizing b blockBuf indirectBuf rows with
  | zero => exact done
  | succ left ih =>
    refine Total.bind (total_inodeBlock dir b hindirect) fun ⟨physBlock, indirectBuf⟩ =>
      of_fact fun hindirect => ?_
    refine Total.ite (fun _ => ih hblock hindirect) fun _ => ?_
    refine Total.bind (total_readBlock physBlock hblock) fun ⟨ok, blockBuf⟩ =>
      of_fact fun hblock => ?_
    refine Total.ite (fun _ => ih hblock hindirect) fun _ => ?_
    have hpos := m.blockSize_pos
    exact Total.bind (total_listBlock hblock (Nat.zero_le _) (by omega)) fun rows =>
      ih hblock hindirect

theorem total_extfsLs :
    Total (Clean m before live) (extfsLs disk env m) fun _ => Clean m before live := by
  refine Total.bind (total_readInode 2) fun root => ?_
  rcases root with _ | root
  · exact done
  refine Total.bind (total_kmalloc m.blockSize) fun got => ?_
  rcases got with _ | ⟨blockNum, blockBuf⟩
  · exact done
  refine of_fact fun hblock => Total.bind (total_kmalloc m.blockSize) fun got => ?_
  rcases got with _ | ⟨indirectNum, indirectBuf⟩
  · exact Total.bind (total_kfree blockNum) fun _ => done
  refine of_fact fun hindirect => ?_
  refine Total.bind (total_listBlocks root hblock hindirect) fun rows => ?_
  refine Total.bind (total_kfree indirectNum) fun _ => ?_
  exact Total.bind (total_kfree blockNum) fun _ => done

end MicroK.Ext
