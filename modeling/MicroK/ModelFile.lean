import MicroK.RegionSearch
import MicroK.Fat32Listing
import MicroK.Fat32Runs
import MicroK.MklmSafety

/-!
# Loading a model from a file

`llm_load_model_file` finds a file of the volume by its name or by the beginning of its name,
allocates a region of the size of the file and reads the file into it. When the read fails it
returns without the region.
-/

namespace MicroK.Llm

open Fat32 Pmm

section

variable {σ : Type} (fs : Fs σ)

def startsWithCi (text start : List UInt8) : Bool :=
  start ≠ [] ∧ start.length ≤ text.length ∧
    (text.take start.length).map Mklm.asciiLower = start.map Mklm.asciiLower

/-- The search through the root directory; a second match ends it without a result. -/
def matchLoop (name : List UInt8) : ℕ → ℕ → Option (List UInt8) → Io σ (Option (List UInt8))
  | 0, _, found => pure found
  | left + 1, i, found => do
    match ← getEntryByIndex fs [0x2F] i with
    | none => pure found
    | some entry =>
      if !entry.isDir && startsWithCi entry.name name then
        if found.isSome then pure none
        else matchLoop name left (i + 1) (some (entry.name.take 63))
      else matchLoop name left (i + 1) found

/-- The name of the file and its size, which is not zero. -/
def resolveModel (name : List UInt8) : Io σ (Option (List UInt8 × BitVec 32)) := do
  let size ← getSize fs (name.take 63)
  if BitVec.ofNat 32 size ≠ 0 then pure (some (name.take 63, BitVec.ofNat 32 size))
  else
    match ← matchLoop fs name 128 0 none with
    | none => pure none
    | some resolved => do
      let size ← getSize fs resolved
      pure (if BitVec.ofNat 32 size ≠ 0 then some (resolved, BitVec.ofNat 32 size) else none)

structure ModelFile where
  start : ℕ
  size : BitVec 32
  name : List UInt8
  data : Buf

def readModel (mem : Buf) (resolved : List UInt8) (size : BitVec 32) (addr : ℕ) :
    Io σ (Option ModelFile) := do
  let r ← loadFile fs resolved (mem.from addr) size.toNat
  pure (if r.ok ∧ r.outSize = size.toNat then some ⟨addr, size, resolved, r.buffer⟩ else none)

/-- `llm_load_model_file` up to the call of `llm_load_model_module`, with the model that is handed
to it. -/
def loadModelFile (mem : Buf) (s : State) (name : List UInt8) :
    Io σ (State × Option ModelFile) := do
  match ← resolveModel fs name with
  | none => pure (s, none)
  | some (resolved, size) =>
    if !modelFits s size then pure (s, none)
    else if (allocRegion s size).2 = 0 then pure ((allocRegion s size).1, none)
    else do
      let model ← readModel fs mem resolved size (allocRegion s size).2
      pure ((allocRegion s size).1, model)

/-- The file was found and there is memory for it, but it cannot be read. -/
def ReadFails (mem : Buf) (s : State) (name : List UInt8) (w : World σ) : Prop :=
  ∃ resolved size, (resolveModel fs name w).1 = some (resolved, size) ∧
    modelFits s size = true ∧ (readModel fs mem resolved size (allocRegion s size).2
      (resolveModel fs name w).2).1 = none

end

variable {σ : Type} {fs : Fs σ} {s : State}

theorem size_ne_zero_of_resolveModel {name resolved : List UInt8} {size : BitVec 32} {w : World σ}
    (h : (resolveModel fs name w).1 = some (resolved, size)) : size ≠ 0 := by
  simp only [resolveModel, Io.bind_apply, Io.ite_apply, Io.pure_apply] at h
  split_ifs at h with hsize
  · cases h
    exact hsize
  · cases hm : (matchLoop fs name 128 0 none (getSize fs (name.take 63) w).2).1 with
    | none =>
      rw [hm] at h
      cases h
    | some found =>
      rw [hm] at h
      simp only [Io.bind_apply, Io.pure_apply] at h
      split_ifs at h with hfound
      cases h
      exact hfound

/-- A load that hands over no model leaves the bitmap alone exactly when no read has failed. -/
theorem loadModelFile_keeps_bitmap_iff (h : WellCounted s) (mem : Buf) (name : List UInt8)
    (w : World σ) :
    ((loadModelFile fs mem s name w).1.2 = none →
      (loadModelFile fs mem s name w).1.1.bitmap = s.bitmap) ↔ ¬ ReadFails fs mem s name w := by
  rw [loadModelFile, Io.bind_apply, ReadFails]
  cases hr : (resolveModel fs name w).1 with
  | none => simp
  | some found =>
    obtain ⟨resolved, size⟩ := found
    have hsize := size_ne_zero_of_resolveModel hr
    cases hfit : modelFits s size with
    | false => simp [hfit]
    | true =>
      have hok := (allocRegion_ne_zero_iff h.max_lt hsize).2 ((modelFits_iff h hsize).1 hfit)
      have hchanged := allocRegion_bitmap_ne h.max_lt hsize hok
      simp [hfit, hok, hchanged]

/-- A drive with the small volume on it: the file `A` of five bytes in cluster 3, which is the
35th sector. -/
def smallDrive (sectors : ℕ) : AtaDrive where
  sectors := sectors
  bytes := (Buf.copyAt (fun _ => 0) (32 * 512 + 8) 8 fun _ => 0xFF).copyAt (33 * 512) 32
    (withSize (newEntry (fun j => if j = 0 then 0x41 else 0x20) 0x20 3) 5)
  commandOk _ := true

def ataEnv : Env ℕ where
  kmallocOk _ := true
  heapBytes _ _ := 0
  stackBytes _ _ := 0
  abort _ := false

def ataFs (sectors : ℕ) : Fs ℕ := ⟨(smallDrive sectors).device, ataEnv, smallMount⟩

/-- Two free pages behind the first one. -/
def threePages : State := ⟨fun _ => 1#32, 3, 1⟩

theorem unknown_name_keeps_bitmap :
    (loadModelFile (ataFs 35) (fun _ => 0) threePages [0x42] ⟨0, 0, 0⟩).1.1.bitmap =
      threePages.bitmap := by
  refine (loadModelFile_keeps_bitmap_iff ⟨by decide, by decide⟩ _ _ _).2 ?_
    (Option.isNone_iff_eq_none.1 (by decide +kernel))
  rintro ⟨resolved, size, hr, -⟩
  have hnone : (resolveModel (ataFs 35) [0x42] ⟨0, 0, 0⟩).1 = none := by decide +kernel
  cases hr

/-- The user stops the load of a file of five bytes, and its page stays taken. -/
theorem stopped_load_keeps_page :
    (loadModelFile ⟨(smallDrive 35).device, { ataEnv with abort := fun _ => true }, smallMount⟩
      (fun _ => 0) threePages [0x41] ⟨0, 0, 0⟩).1.2.isNone = true ∧
    (loadModelFile ⟨(smallDrive 35).device, { ataEnv with abort := fun _ => true }, smallMount⟩
      (fun _ => 0) threePages [0x41] ⟨0, 0, 0⟩).1.1.bitmap 0 = 3#32 := by
  decide +kernel

end MicroK.Llm
