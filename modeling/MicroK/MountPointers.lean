import MicroK.Fat32Table
import MicroK.ExtSafety

/-!
# The mount pointers

A failed mount of an ext or a FAT32 volume frees its record. Where only the root node cannot be
allocated, the global pointer has been set to the record before.
-/

namespace MicroK.Ext

open Checked Total

variable {σ : Type} {α : Type}

/-- The common steps of `ext_mount` and `fat32_mount`. `fill` reads the volume into the record. -/
def mountWith (env : Env σ) (recordSize nodeSize : ℕ) (fill : Image → Reader σ (Option α)) :
    Reader σ (Option α) := do
  match ← kmalloc env recordSize with
  | none => pure none
  | some (record, fresh) =>
    match ← fill fresh with
    | none => do
      kfree record
      pure none
    | some volume => do
      Checked.modify fun s => { s with mounted := some record }
      match ← kmalloc env nodeSize with
      | none => do
        kfree record
        pure none
      | some _ => pure (some volume)

variable (disk : Disk σ)

/-- The record is cleared before the superblock is read into it. -/
def extFill (_ : Image) : Reader σ (Option Mount) := do
  match ← readSuperblock disk (localRecord superblockSize) with
  | none => pure none
  | some sb =>
    match Mount.ofSuperblock sb with
    | none => pure none
    | some m => do
      let ok ← readGroup0 disk m
      pure (if ok then some m else none)

def extMount (env : Env σ) : Reader σ (Option Mount) :=
  mountWith env 120 148 (extFill disk)

/-- The boot sector is read into fresh memory behind the device pointer. -/
def fat32Fill (fresh : Image) : Reader σ (Option Fat32.Mount) := do
  let (got, bpb) ← readDevice disk .bootSector 0 512 ⟨512, fun i => fresh.byte (4 + i)⟩
  match got with
  | none => pure none
  | some _ => pure (some (Fat32.Mount.ofBootSector (Fat32.BootSector.ofBytes bpb.byte)))

def fat32Mount (env : Env σ) : Reader σ (Option Fat32.Mount) :=
  mountWith env 532 156 (fat32Fill disk)

/-- The numbers of allocated buffers have been used, and the mount pointer points to one of them. -/
structure Owned (s : Session σ) : Prop where
  live_lt : ∀ n ∈ s.live, n < s.allocs
  mounted : ∀ n, s.mounted = some n → n ∈ s.live

/-- After a call that returns null, the pointer is what it was and does not point to freed
memory. -/
def PointerKept (x : Reader σ (Option α)) (s : Session σ) : Prop :=
  ∀ s', x s = .ok (none, s') → s'.mounted = s.mounted ∧ ∀ n, s'.mounted = some n → n ∈ s'.live

def withRecord (s : Session σ) : Session σ :=
  { s with allocs := s.allocs + 1, live := s.allocs :: s.live }

def Accepted (env : Env σ) (recordSize : ℕ) (fill : Image → Reader σ (Option α))
    (s : Session σ) : Prop :=
  ∃ volume s', fill ⟨recordSize, env.heapBytes s.allocs⟩ (withRecord s) = .ok (some volume, s')

/-- Reading the device touches neither the heap nor the pointer. -/
def KeepsHeap (x : Reader σ α) : Prop :=
  ∀ h, Total (fun s => s.heap = h) x fun _ s => s.heap = h

variable (disk : Disk σ)

theorem keepsHeap_readDevice (item : Item) (offset : ℕ) {size : ℕ} {buffer : Image}
    (hsize : size ≤ buffer.size) : KeepsHeap (readDevice disk item offset size buffer) := by
  intro h s hs
  unfold readDevice
  cases hread : disk.read with
  | none => exact ⟨_, s, rfl, hs⟩
  | some read =>
    dsimp only
    by_cases hzero : disk.blockSize = 0
    · rw [if_pos hzero]
      exact ⟨_, s, rfl, hs⟩
    have hle := disk.read_le read hread s.dev offset size
    rw [if_neg hzero, if_neg (by omega)]
    exact ⟨_, _, rfl, hs⟩

theorem keepsHeap_extFill (fresh : Image) : KeepsHeap (extFill disk fresh) := by
  intro h
  refine Total.bind (Q := fun _ s => s.heap = h) ?_ fun sb => ?_
  · refine Total.bind (keepsHeap_readDevice disk .superblock 1024 le_rfl h) fun ⟨got, out⟩ => ?_
    cases got with
    | none => exact done
    | some _ => exact done
  cases sb with
  | none => exact done
  | some sb =>
    dsimp only
    cases Mount.ofSuperblock sb with
    | none => exact done
    | some m =>
      refine Total.bind (Q := fun _ s => s.heap = h) ?_ fun ok => done
      exact Total.bind (keepsHeap_readDevice disk (.group 0) _ le_rfl h) fun _ => done

theorem keepsHeap_fat32Fill (fresh : Image) : KeepsHeap (fat32Fill disk fresh) := by
  intro h
  refine Total.bind (keepsHeap_readDevice disk .bootSector 0 le_rfl h) fun ⟨got, bpb⟩ => ?_
  cases got with
  | none => exact done
  | some _ => exact done

theorem kfree_head {s : Session σ} {n : ℕ} {live : List ℕ} (h : s.live = n :: live) :
    kfree n s = .ok ((), { s with live := live }) := by
  unfold kfree
  rw [h, if_pos List.mem_cons_self, List.erase_cons_head]

section

variable {α : Type} {env : Env σ} {recordSize nodeSize : ℕ} {fill : Image → Reader σ (Option α)}
  {s t : Session σ} {volume : α}

theorem mountWith_no_record (h : env.kmallocOk s.allocs = false) :
    mountWith env recordSize nodeSize fill s = .ok (none, { s with allocs := s.allocs + 1 }) := by
  have hrun : kmalloc env recordSize s = .ok (none, { s with allocs := s.allocs + 1 }) := by
    rw [kmalloc, h]
    rfl
  exact bind_of_ok hrun

variable (h : env.kmallocOk s.allocs = true)
include h

theorem mountWith_record :
    mountWith env recordSize nodeSize fill s =
      (fill ⟨recordSize, env.heapBytes s.allocs⟩ >>= fun filled =>
        match filled with
        | none => do
          kfree s.allocs
          pure none
        | some volume => do
          Checked.modify fun s' => { s' with mounted := some s.allocs }
          match ← kmalloc env nodeSize with
          | none => do
            kfree s.allocs
            pure none
          | some _ => pure (some volume)) (withRecord s) := by
  have hrun : kmalloc env recordSize s =
      .ok (some (s.allocs, ⟨recordSize, env.heapBytes s.allocs⟩), withRecord s) := by
    rw [kmalloc, h]
    rfl
  exact bind_of_ok hrun

theorem mountWith_rejected
    (hfill : fill ⟨recordSize, env.heapBytes s.allocs⟩ (withRecord s) = .ok (none, t))
    (hheap : t.heap = (withRecord s).heap) :
    mountWith env recordSize nodeSize fill s = .ok (none, { t with live := s.live }) := by
  rw [mountWith_record h, bind_of_ok hfill]
  exact bind_of_ok (kfree_head (congrArg Prod.fst hheap))

theorem mountWith_no_node (hnode : env.kmallocOk (s.allocs + 1) = false)
    (hfill : fill ⟨recordSize, env.heapBytes s.allocs⟩ (withRecord s) = .ok (some volume, t))
    (hheap : t.heap = (withRecord s).heap) : mountWith env recordSize nodeSize fill s =
      .ok (none, { t with allocs := t.allocs + 1, live := s.live, mounted := some s.allocs }) := by
  have hallocs : t.allocs = s.allocs + 1 := congrArg (fun h => h.2.1) hheap
  have hlive : t.live = s.allocs :: s.live := congrArg Prod.fst hheap
  rw [mountWith_record h, bind_of_ok hfill]
  dsimp only
  rw [bind_of_ok (modify_apply _ t)]
  have hrun : kmalloc env nodeSize { t with mounted := some s.allocs } =
      .ok (none, { t with allocs := t.allocs + 1, mounted := some s.allocs }) := by
    rw [kmalloc, hallocs, hnode]
    rfl
  rw [bind_of_ok hrun]
  exact bind_of_ok (kfree_head hlive)

theorem mountWith_mounted (hnode : env.kmallocOk (s.allocs + 1) = true)
    (hfill : fill ⟨recordSize, env.heapBytes s.allocs⟩ (withRecord s) = .ok (some volume, t))
    (hheap : t.heap = (withRecord s).heap) :
    ∃ t', mountWith env recordSize nodeSize fill s = .ok (some volume, t') := by
  have hallocs : t.allocs = s.allocs + 1 := congrArg (fun h => h.2.1) hheap
  rw [mountWith_record h, bind_of_ok hfill]
  dsimp only
  rw [bind_of_ok (modify_apply _ t)]
  have hrun : ∃ r t', kmalloc env nodeSize { t with mounted := some s.allocs } =
    .ok (some r, t') := by
    rw [kmalloc, hallocs, hnode]
    exact ⟨_, _, rfl⟩
  obtain ⟨r, t', hrun⟩ := hrun
  exact ⟨t', bind_of_ok hrun⟩

omit h

/-- The pointer is kept unless the volume is accepted and only the node cannot be allocated. -/
theorem pointerKept_mountWith_iff (hkeeps : ∀ fresh, KeepsHeap (fill fresh)) (hs : Owned s) :
    PointerKept (mountWith env recordSize nodeSize fill) s ↔
      (env.kmallocOk s.allocs = true → env.kmallocOk (s.allocs + 1) = false →
        ¬ Accepted env recordSize fill s) := by
  have hfresh : s.allocs ∉ s.live := fun h => lt_irrefl _ (hs.live_lt _ h)
  cases hrecord : env.kmallocOk s.allocs with
  | false =>
    refine iff_of_true (fun s' hrun => ?_) nofun
    obtain ⟨-, rfl⟩ := Prod.mk.inj (Outcome.ok.inj ((mountWith_no_record hrecord).symm.trans hrun))
    exact ⟨rfl, hs.mounted⟩
  | true =>
    obtain ⟨filled, t, hfill, hheap⟩ := hkeeps _ _ (withRecord s) rfl
    cases filled with
    | none =>
      refine iff_of_true (fun s' hrun => ?_) fun _ _ ⟨volume, t', haccepted⟩ => ?_
      · obtain ⟨-, rfl⟩ :=
          Prod.mk.inj (Outcome.ok.inj ((mountWith_rejected hrecord hfill hheap).symm.trans hrun))
        have hmounted : t.mounted = s.mounted := congrArg (fun h => h.2.2) hheap
        exact ⟨hmounted, fun n hn => hs.mounted n (hmounted.symm.trans hn)⟩
      · cases hfill.symm.trans haccepted
    | some volume =>
      cases hnode : env.kmallocOk (s.allocs + 1) with
      | true =>
        have hmount : ∃ t', mountWith env recordSize nodeSize fill s = .ok (some volume, t') :=
          mountWith_mounted hrecord hnode hfill hheap
        obtain ⟨t', hrun'⟩ := hmount
        refine iff_of_true (fun s' hrun => ?_) nofun
        cases hrun'.symm.trans hrun
      | false =>
        refine iff_of_false (fun hkept => ?_) fun h => h rfl rfl ⟨volume, t, hfill⟩
        exact hfresh ((hkept _ (mountWith_no_node hrecord hnode hfill hheap)).2 _ rfl)

end

/-- A failed mount leaves the pointer alone exactly when it does not fail at the allocation of the
root node, after the record and the volume have been accepted. -/
theorem mount_pointer_kept_iff (disk : Disk σ) (env : Env σ) (s : Session σ) (hs : Owned s) :
    (PointerKept (extMount disk env) s ↔ (env.kmallocOk s.allocs = true →
        env.kmallocOk (s.allocs + 1) = false → ¬ Accepted env 120 (extFill disk) s)) ∧
      (PointerKept (fat32Mount disk env) s ↔ (env.kmallocOk s.allocs = true →
        env.kmallocOk (s.allocs + 1) = false → ¬ Accepted env 532 (fat32Fill disk) s)) :=
  ⟨pointerKept_mountWith_iff (keepsHeap_extFill disk) hs,
    pointerKept_mountWith_iff (keepsHeap_fat32Fill disk) hs⟩

def imageDisk (bytes : Buf) : Disk Unit where
  blockSize := 512
  read := some fun _ offset size => ((size, bytes.from offset), ())
  write := none
  read_le f hf _ _ _ := by
    obtain rfl := Option.some.inj hf
    exact le_rfl

/-- One block and one inode in each of `2 ^ 27 + 1` groups. The root directory, in group 1, has a
file `a` in the last group. -/
def wideImage : Buf := fun i =>
  (List.lookup i [(1024, 1), (1028, 1), (1031, 8), (1056, 1), (1064, 1), (1080, 0x53), (1081, 0xEF),
    (2088, 3), (3077, 4), (3112, 4), (4096, 1), (4099, 8), (4101, 4), (4102, 1), (4103, 1),
    (4104, 0x61)]).getD 0

/-- A heap on which the first calls of `kmalloc` succeed. -/
def heapFor (calls : ℕ) : Env Unit where
  kmallocOk n := n < calls
  heapBytes _ _ := 0
  stackBytes _ _ := 0
  abort _ := false

/-- The volume has been mounted, in the first buffer. -/
def mountedSession : Session Unit :=
  after (extMount (imageDisk wideImage) (heapFor 2)) { dev := () }

theorem owned_mountedSession : Owned mountedSession := by
  have hheap : mountedSession.heap = ([1, 0], 2, some 0) := by decide +kernel
  obtain ⟨hlive, hallocs, hmounted⟩ : mountedSession.live = [1, 0] ∧ mountedSession.allocs = 2 ∧
      mountedSession.mounted = some 0 := by simpa [Session.heap] using hheap
  constructor
  · rw [hlive, hallocs]
    decide
  · intro n hn
    rw [hmounted] at hn
    rw [hlive, ← Option.some.inj hn]
    decide

/-- A blank device is refused, and so is the volume for want of memory; the first mount stays. -/
theorem mount_pointer_kept_mounted :
    mountedSession.mounted = some 0 ∧
      (result (extMount (imageDisk fun _ => 0) (heapFor 4)) mountedSession = some none ∧
        PointerKept (extMount (imageDisk fun _ => 0) (heapFor 4)) mountedSession) ∧
      result (fat32Mount (imageDisk wideImage) (heapFor 2)) mountedSession = some none ∧
        PointerKept (fat32Mount (imageDisk wideImage) (heapFor 2)) mountedSession := by
  have hallocs : mountedSession.allocs = 2 := by decide +kernel
  have hext := mount_pointer_kept_iff (imageDisk fun _ => 0) (heapFor 4) _ owned_mountedSession
  have hfat := mount_pointer_kept_iff (imageDisk wideImage) (heapFor 2) _ owned_mountedSession
  rw [hallocs] at hext hfat
  refine ⟨by decide +kernel, ⟨by decide +kernel, hext.1.mpr fun _ hnode => ?_⟩, by decide +kernel,
    hfat.2.mpr fun hrecord => ?_⟩
  · exact absurd hnode (by decide)
  · exact absurd hrecord (by decide)

/-- With memory for the record only, both pointers are left to point to the freed record. -/
theorem mount_pointer_dangles :
    ¬ PointerKept (extMount (imageDisk wideImage) (heapFor 1)) { dev := () } ∧
      ¬ PointerKept (fat32Mount (imageDisk wideImage) (heapFor 1)) { dev := () } := by
  have hext : result (extMount (imageDisk wideImage) (heapFor 1)) { dev := () } = some none ∧
      (after (extMount (imageDisk wideImage) (heapFor 1)) { dev := () }).mounted = some 0 := by
    decide +kernel
  have hfat : result (fat32Mount (imageDisk wideImage) (heapFor 1)) { dev := () } = some none ∧
      (after (fat32Mount (imageDisk wideImage) (heapFor 1)) { dev := () }).mounted = some 0 := by
    decide +kernel
  refine ⟨fun h => ?_, fun h => ?_⟩
  · cases hext.2.symm.trans (h _ (run_eq_ok hext.1)).1
  · cases hfat.2.symm.trans (h _ (run_eq_ok hfat.1)).1

end MicroK.Ext
