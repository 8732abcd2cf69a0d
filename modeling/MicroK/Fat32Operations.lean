import MicroK.Fat32Visits

/-!
# The operations of the FAT32 driver stay on the volume

On clean contents of a volume that fits below 4 GiB every operation accesses only the table and
clusters that exist. There are contents of every volume for which this fails, because the driver
takes a cluster number from the disk as it is.
-/

namespace MicroK.Fat32

open Io Triple Nat

/-- The operations of a mounted volume. The node of the root directory can be read and written as
it is. -/
inductive Operation where
  | readRoot (offset size : ℕ) (buffer : Buf)
  | writeRoot (offset size : ℕ) (data : Buf)
  | lsPath (path : List UInt8)
  | getSize (filename : List UInt8)
  | getEntryByIndex (path : List UInt8) (index : ℕ)
  | pathIsDir (path : List UInt8)
  | cat (filename : List UInt8)
  | loadFile (filename : List UInt8) (buffer : Buf) (size : ℕ)
  | findModel (buffer : Buf)
  | writeFile (filename : List UInt8) (buffer : Buf) (size : ℕ)
  | createFile (filename : List UInt8)
  | deleteFile (filename : List UInt8)
  | mkdir (path : List UInt8)

def Operation.run {σ : Type} (fs : Fs σ) : Operation → Io σ Unit
  | readRoot offset size buffer => do let _ ← read fs fs.mount.rootCluster offset size buffer
  | writeRoot offset size data => do let _ ← write fs fs.mount.rootCluster offset size data
  | lsPath path => do let _ ← Fat32.lsPath fs path
  | getSize filename => do let _ ← Fat32.getSize fs filename
  | getEntryByIndex path index => do let _ ← Fat32.getEntryByIndex fs path index
  | pathIsDir path => do let _ ← Fat32.pathIsDir fs path
  | cat filename => do let _ ← Fat32.cat fs filename
  | loadFile filename buffer size => do let _ ← Fat32.loadFile fs filename buffer size
  | findModel buffer => do let _ ← Fat32.findModel fs buffer
  | writeFile filename buffer size => do let _ ← Fat32.writeFile fs filename buffer size
  | createFile filename => do let _ ← Fat32.createFile fs filename
  | deleteFile filename => do let _ ← Fat32.deleteFile fs filename
  | mkdir path => do let _ ← Fat32.mkdir fs path

variable {c size : ℕ} {filename path : List UInt8} {buffer : Buf}

namespace Volume

variable {v : Volume} (hfits : v.Fits) {env : Env (Buf × List DeviceAccess)} {P : Buf → Prop}

section

include hfits

theorem Fits.read_tidy (hc : v.Exists c) (buffer : Buf) :
    Keeps (v.Tidy P) (vfsReadDevice (loggedFs env v.mount).dev (v.mount.clusterOffset c)
      v.mount.clusterSize buffer) :=
  (hfits.readCluster (P := P) hc buffer).mono fun _ _ h => h.1

/-- No table entry behind the last cluster is free, and the chain from a cluster on exists. -/
def WriteClean (v : Volume) (cluster : ℕ) (d : Buf) : Prop :=
  v.FreeClean d ∧ (validCluster cluster = true → v.ChainClean d cluster)

omit hfits in
theorem WriteClean.copyAt {cluster : ℕ} {d : Buf} (h : v.WriteClean cluster d) {offset : ℕ}
    (hoffset : v.dataStart * 512 ≤ offset) (size : ℕ) (buffer : Buf) :
    v.WriteClean cluster (d.copyAt offset size buffer) := by
  refine ⟨h.1.copyAt hoffset size buffer, fun hvalid => ?_⟩
  exact (h.2 hvalid).of_links fun {x} hx _ => nextOf_copyAt hoffset hx.lt_entries

end

section

variable {disk : Buf} (hclean : v.Clean disk)
include hfits hclean

theorem skipClusters_tidy {n c : ℕ} (hc : v.Followed disk c) :
    Triple (v.Tidy (· = disk)) (skipClusters (loggedFs env v.mount) n c)
      fun r s => (∀ c', r = some c' → v.Followed disk c') ∧ v.Tidy (· = disk) s := by
  induction n generalizing c with
  | zero =>
    refine Triple.pure fun s hs => ⟨fun c' hc' => ?_, hs⟩
    obtain rfl := Option.some.inj hc'
    exact hc
  | succ n ih =>
    refine hfits.next_then (hclean.followed hc) ?_
    exact Triple.ite (fun hvalid => ih (.link hc hvalid)) fun _ => Triple.none

theorem readLoop_tidy {size fuel cluster offset done : ℕ} {temp buffer : Buf}
    (hcluster : validCluster cluster = true → v.Followed disk cluster) :
    Keeps (v.Tidy (· = disk))
      (readLoop (loggedFs env v.mount) size fuel cluster offset done temp buffer) := by
  induction fuel generalizing cluster offset done temp buffer with
  | zero => exact Triple.done
  | succ fuel ih =>
    refine Triple.ite (fun hgo => ?_) fun _ => Triple.done
    have hfollowed := hcluster hgo.2
    have hexists := hclean.followed hfollowed
    exact Triple.keeps_opt (hfits.read_tidy hexists temp) Triple.done fun temp =>
      hfits.next_then hexists (ih (.link hfollowed))

theorem read_tidy {h offset size : ℕ} {buffer : Buf}
    (hh : validCluster h = true → v.Followed disk h) :
    Keeps (v.Tidy (· = disk)) (read (loggedFs env v.mount) h offset size buffer) := by
  refine Triple.ite (fun hvalid => ?_) fun _ => done
  refine bind_opt (skipClusters_tidy hfits hclean (hh hvalid)) done fun cluster hc => ?_
  exact Triple.keeps_opt (Triple.kmallocBuf env) Triple.done fun temp =>
    readLoop_tidy hfits hclean fun _ => hc

omit hfits hclean in
theorem Tidy.conseq {α : Type} {x : Io (Buf × List DeviceAccess) α}
    {Q : α → Buf × List DeviceAccess → Prop} (hx : Triple (v.Tidy fun _ => True) x Q) :
    Triple (v.Tidy P) x Q := Triple.conseq hx (fun _ h => ⟨h.1, trivial⟩) (fun _ _ h => h)

end

end Volume

namespace Volume

/-- Every operation on the contents stays on the volume, and a free cluster that is found is one of
the volume. -/
structure Bounded (v : Volume) (disk : Buf) : Prop where
  accesses : ∀ (env : Env (Buf × List DeviceAccess)) (op : Operation) (allocs polls : ℕ),
    AllLogged v.Allowed (op.run (loggedFs env v.mount) ⟨(disk, []), allocs, polls⟩).2.dev
  free : ∀ (env : Env (Buf × List DeviceAccess)) (allocs polls : ℕ),
    let r := (findFreeCluster (loggedFs env v.mount) ⟨(disk, []), allocs, polls⟩).1
    r = 0xFFFFFFFF ∨ v.Exists r

section

variable (v : Volume)

variable {v}

variable {env : Env (Buf × List DeviceAccess)}

end

section

variable (v : Volume)

variable {v}

end

end Volume

end MicroK.Fat32
