import MicroK.MachineWords

/-!
# The initial RAM disk

The loader adds the address of the module to the offset in each file header, and a read adds the
offset of the request to that. Both sums wrap, and neither is compared with the end of the module.
-/

namespace MicroK.Initrd

open List

structure FileHeader where
  offset : BitVec 32
  length : BitVec 32

structure Node where
  length : BitVec 32
  ptr : ℕ
  deriving DecidableEq

structure Tree where
  fileHeaders : ℕ → FileHeader
  rootNodes : List Node := []

/-- The addresses of the bytes that `initrd_read` copies. -/
def initrdRead (t : Tree) (node : Node) (offset size : BitVec 32) : List (BitVec 32) :=
  let header := t.fileHeaders node.ptr
  if header.length < offset then []
  else
    let size := if header.length - offset < size then header.length - offset else size
    (List.range size.toNat).map fun k => header.offset + offset + BitVec.ofNat 32 k

/-- The loop of `initialise_initrd` over the first files. -/
def addFiles (location : BitVec 32) : ℕ → Tree → Tree
  | 0, t => t
  | n + 1, t =>
    let t := addFiles location n t
    let header := { t.fileHeaders n with offset := (t.fileHeaders n).offset + location }
    { fileHeaders := Function.update t.fileHeaders n header
      rootNodes := t.rootNodes ++ [⟨header.length, n⟩] }

/-- A header has 4 bytes and a file header has 76. -/
def maxFiles (location stop : BitVec 32) : ℕ := (stop - location - 4).toNat / 76

/-- `kmallocOk` says which of the two allocations succeed. -/
def initialiseInitrd (kmallocOk : Fin 2 → Bool) (nfiles : BitVec 32) (headers : ℕ → FileHeader)
    (location stop : BitVec 32) : Tree :=
  if kmallocOk 0 = false ∨ stop ≤ location ∨ stop - location < 4 then ⟨headers, []⟩
  else if kmallocOk 1 = false then ⟨headers, []⟩
  else addFiles location (min nfiles.toNat (maxFiles location stop)) ⟨headers, []⟩

theorem fileHeaders_addFiles (location : BitVec 32) (headers : ℕ → FileHeader) (n i : ℕ) :
    (addFiles location n ⟨headers, []⟩).fileHeaders i =
      if i < n then { headers i with offset := (headers i).offset + location } else headers i := by
  induction n generalizing i with
  | zero => rfl
  | succ n ih =>
    rw [addFiles]
    dsimp only
    by_cases hi : i = n
    · rw [hi, Function.update_self, ih, if_neg (lt_irrefl n), if_pos (Nat.lt_succ_self n)]
    · rw [Function.update_of_ne hi, ih]
      exact if_congr (by omega) rfl rfl

theorem rootNodes_addFiles (location : BitVec 32) (headers : ℕ → FileHeader) (n : ℕ) :
    (addFiles location n ⟨headers, []⟩).rootNodes =
      (List.range n).map fun i => ⟨(headers i).length, i⟩ := by
  induction n with
  | zero => rfl
  | succ n ih =>
    rw [addFiles, range_succ, map_append]
    rw [ih, fileHeaders_addFiles, if_neg (lt_irrefl n)]
    rfl

theorem range_inside_iff {location stop : BitVec 32} (h : location < stop) (off len : BitVec 32) :
    (∀ k < len.toNat, location ≤ off + location + BitVec.ofNat 32 k ∧
        off + location + BitVec.ofNat 32 k < stop) ↔
      len = 0 ∨ off.toNat + len.toNat ≤ (stop - location).toNat := by
  constructor
  · intro hall
    by_contra! hout
    have hk := hall ((stop - location).toNat - off.toNat) (by bv_omega)
    bv_omega
  · intro hin k hk
    bv_omega

theorem mem_initrdRead {t : Tree} {node : Node} {offset size a : BitVec 32}
    (h : a ∈ initrdRead t node offset size) : ∃ k < (t.fileHeaders node.ptr).length.toNat,
      a = (t.fileHeaders node.ptr).offset + BitVec.ofNat 32 k := by
  unfold initrdRead at h
  dsimp only at h
  split_ifs at h with hout hcut
  · cases h
  · obtain ⟨k, hk, rfl⟩ := mem_map.mp h
    rw [mem_range] at hk
    exact ⟨offset.toNat + k, by bv_omega, by bv_omega⟩
  · obtain ⟨k, hk, rfl⟩ := mem_map.mp h
    rw [mem_range] at hk
    exact ⟨offset.toNat + k, by bv_omega, by bv_omega⟩

theorem initrdRead_all (t : Tree) (node : Node) {k : ℕ}
    (hk : k < (t.fileHeaders node.ptr).length.toNat) :
    (t.fileHeaders node.ptr).offset + BitVec.ofNat 32 k ∈
      initrdRead t node 0 (t.fileHeaders node.ptr).length := by
  unfold initrdRead
  rw [if_neg (by bv_omega), if_neg (by bv_omega)]
  exact mem_map.mpr ⟨k, mem_range.mpr hk, congrArg (· + _) (add_zero _)⟩

def ReadsInside (t : Tree) (location stop : BitVec 32) : Prop :=
  ∀ node ∈ t.rootNodes, ∀ offset size, ∀ a ∈ initrdRead t node offset size,
    location ≤ a ∧ a < stop

/-- The number of nodes that are made. -/
def nodeCount (kmallocOk : Fin 2 → Bool) (nfiles location stop : BitVec 32) : ℕ :=
  if kmallocOk 0 ∧ kmallocOk 1 ∧ location < stop ∧ 4 ≤ stop - location then
    min nfiles.toNat (maxFiles location stop)
  else 0

theorem initialiseInitrd_eq (kmallocOk : Fin 2 → Bool) (nfiles : BitVec 32)
    (headers : ℕ → FileHeader) (location stop : BitVec 32) :
    initialiseInitrd kmallocOk nfiles headers location stop =
      addFiles location (nodeCount kmallocOk nfiles location stop) ⟨headers, []⟩ := by
  unfold initialiseInitrd nodeCount
  by_cases hmade : kmallocOk 0 ∧ kmallocOk 1 ∧ location < stop ∧ 4 ≤ stop - location
  · obtain ⟨hroot, hnodes, hlt, hheader⟩ := hmade
    have hgo : ¬ (kmallocOk 0 = false ∨ stop ≤ location ∨ stop - location < 4) := by
      rw [hroot, not_or, not_or, BitVec.not_le, BitVec.not_lt]
      exact ⟨nofun, hlt, hheader⟩
    rw [if_neg hgo, hnodes, if_neg (by simp), if_pos ⟨hroot, rfl, hlt, hheader⟩]
  · rw [if_neg hmade]
    split_ifs with hnone hfull
    · rfl
    · rfl
    · refine absurd ⟨?_, ?_, ?_⟩ hmade
      · simpa using fun h => hnone (.inl h)
      · simpa using hfull
      · bv_omega

/-- All reads stay inside the module exactly when each file that has a node is empty or lies inside
it. -/
theorem readsInside_iff (kmallocOk : Fin 2 → Bool) (nfiles : BitVec 32) (headers : ℕ → FileHeader)
    (location stop : BitVec 32) :
    ReadsInside (initialiseInitrd kmallocOk nfiles headers location stop) location stop ↔
      ∀ i < nodeCount kmallocOk nfiles location stop,
        (headers i).length = 0 ∨
          (headers i).offset.toNat + (headers i).length.toNat ≤ (stop - location).toNat := by
  have hstart : ∀ i < nodeCount kmallocOk nfiles location stop, location < stop := by
    intro i hi
    unfold nodeCount at hi
    split_ifs at hi with hmade
    · exact hmade.2.2.1
    · omega
  rw [initialiseInitrd_eq]
  generalize nodeCount kmallocOk nfiles location stop = n at *
  unfold ReadsInside
  simp only [rootNodes_addFiles, forall_mem_map, mem_range]
  refine forall₂_congr fun i hi => ?_
  have hheader := fileHeaders_addFiles location headers n i
  rw [if_pos hi] at hheader
  rw [← range_inside_iff (hstart i hi)]
  constructor
  · intro hall k hk
    have hmem := initrdRead_all (addFiles location n ⟨headers, []⟩) ⟨(headers i).length, i⟩
      (by rw [hheader]; exact hk)
    rw [hheader] at hmem
    exact hall _ _ _ hmem
  · intro hall offset size a ha
    obtain ⟨k, hk, rfl⟩ := mem_initrdRead ha
    rw [hheader] at hk ⊢
    exact hall k hk

/-- A module of 80 bytes with one file, whose bytes are said to start 4 KiB behind its start. -/
theorem read_behind_module :
    ¬ ReadsInside (initialiseInitrd (fun _ => true) 1 (fun _ => ⟨0x1000, 16⟩) 0x100000 0x100050)
      0x100000 0x100050 := by
  intro h
  have hfirst := h ⟨16, 0⟩ (by decide) 0 1 0x101000 (by decide)
  exact absurd hfirst.2 (by decide)

end MicroK.Initrd
