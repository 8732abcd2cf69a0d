import MicroK.TensorRequests
import MicroK.KheapRestore

/-!
# The memory of a new tensor

`tensor_create` checks the product of the dimensions and not the number of bytes that it asks for.
-/

namespace MicroK.Tensor

open Kheap BlockTiling List
open Gguf (createStep foldl_createStep foldl_createStep_none)

def tensorSize : ℕ := 40

/-- The loop over the dimensions, which stores each of them and the product so far. -/
def storeDims (t : ℕ) : List (BitVec 32) → ℕ → ℕ → Heap → Heap × Option ℕ
  | [], _, count, hp => (hp, some count)
  | dim :: dims, i, count, hp =>
    let hp := hp.store (t + 4 * i) dim.toNat
    if 0 < dim.toNat ∧ count > 0xFFFFFFFF / dim.toNat then (hp, none)
    else
      let count := u32 (count * dim.toNat)
      storeDims t dims (i + 1) count (hp.store (t + 20) count)

variable (hp : Heap)

def zeroBytes (ptr n : ℕ) : Heap :=
  { hp with mem := fun x => if ptr ≤ x ∧ x < ptr + n then 0 else hp.mem x }

def tensorCreate (dims : List (BitVec 32)) : Heap × ℕ :=
  let t := kmalloc hp tensorSize
  if t.2 = 0 then (t.1, 0)
  else
    match storeDims t.2 dims 0 1 ((t.1.store (t.2 + 16) dims.length).store (t.2 + 20) 1) with
    | (hp, none) => (kfree hp t.2, 0)
    | (hp, some count) =>
      if count = 0 then (kfree hp t.2, 0)
      else
        let data := kmalloc hp (u32 (count * 4))
        let hp := data.1.store (t.2 + 24) data.2
        if data.2 = 0 then (kfree hp t.2, 0)
        else (zeroBytes (hp.store (t.2 + 28) 1) data.2 (u32 (count * 4)), t.2)

def product (dims : List (BitVec 32)) : ℕ := (dims.map BitVec.toNat).prod

/-- `t->data` is a block with room for `n` bytes. -/
def HasRoom (t n : ℕ) : Prop :=
  ∃ b ∈ blocks hp, b.free = false ∧ b.addr + headerSize = hp.mem (t + 24) ∧ n ≤ b.size

variable {c : Client} {bs : List Block} {dims : List (BitVec 32)}

theorem storeDims_spec {t i : ℕ} (hi : i + dims.length ≤ 4) (count : ℕ) {hp hp' : Heap}
    (hw : WritesIn t tensorSize hp hp') :
    WritesIn t tensorSize hp (storeDims t dims i count hp').1 ∧
      (storeDims t dims i count hp').2 = (dims.map BitVec.toNat).foldl createStep (some count) := by
  have hsize : tensorSize = 40 := rfl
  induction dims generalizing i count hp' with
  | nil => exact ⟨hw, rfl⟩
  | cons dim dims ih =>
    rw [length_cons] at hi
    have hdim : WritesIn t tensorSize hp (hp'.store (t + 4 * i) dim.toNat) :=
      hw.store (by omega) (by omega)
    rw [storeDims, map_cons, foldl_cons, createStep, Option.bind_some]
    split_ifs with hover
    · exact ⟨hdim, (foldl_createStep_none _).symm⟩
    · exact ih (by omega) _ (hdim.store (by omega) (by omega))

theorem writesIn_zeroBytes (ptr n : ℕ) : WritesIn ptr n hp (zeroBytes hp ptr n) :=
  ⟨rfl, rfl, fun _ hx => if_neg (by omega)⟩

/-- The block of the elements of a tensor whose record is at `t`. -/
theorem hasRoom_data {t : ℕ} (h : Inv c bs) (ht : (t, tensorSize) ∈ c.live) (n : BitVec 32)
    (room : ℕ) :
    let data := kmalloc c.heap n.toNat
    let hp := zeroBytes ((data.1.store (t + 24) data.2).store (t + 28) 1) data.2 n.toNat
    data.2 ≠ 0 → (room ≤ n.toNat → HasRoom hp t room) ∧ (HasRoom hp t room → room < 2 ^ 32) := by
  intro data hp hne
  have hsize : tensorSize = 40 := rfl
  rcases kmalloc_cases h n.toNat with ⟨he, -⟩ | ⟨b, hfind, hpos, he⟩
  · exact absurd (congrArg Prod.snd he) hne
  · have hnew := inv_takeBlock h hfind hpos
    have hrecord := hnew.writesIn (q := (t, tensorSize)) (.tail _ ht)
      (((WritesIn.refl ..).store (by omega) (by omega)).store (by omega) (by omega) :
        WritesIn t tensorSize _ ((Heap.store _ (t + 24) (b.addr + headerSize)).store (t + 28) 1))
    have hall := hrecord.writesIn mem_cons_self (writesIn_zeroBytes _ _ n.toNat)
    have hheap : hp = zeroBytes (((takeBlock c.heap b.addr (align4 n.toNat)).store (t + 24)
        (b.addr + headerSize)).store (t + 28) 1) (b.addr + headerSize) n.toNat := by
      simp only [hp, data, he]
    have hptr : hp.mem (t + 24) = b.addr + headerSize := by
      rcases (pairwise_cons.1 (pairwise_live hnew)).1 _ ht with hlow | hhigh
      all_goals
        rw [hheap, (writesIn_zeroBytes _ _ _).mem_eq _ (by omega)]
        exact (Function.update_of_ne (by omega) _ _).trans (Function.update_self ..)
    rw [HasRoom, hptr, hheap, hall.blocks_eq]
    constructor
    · intro hle
      obtain ⟨-, d, hd, hused, haddr, hn⟩ := hnew.live_mem _ mem_cons_self
      exact ⟨d, hd, hused, haddr, hle.trans hn⟩
    · rintro ⟨d, hd, -, -, hle⟩
      have hend := hall.fills.end_lt hd
      omega

theorem tensorCreate_spec (h : Inv c bs) (hdims : dims.length ≤ 4) :
    ((tensorCreate c.heap dims).2 = 0 ∧ blocks (tensorCreate c.heap dims).1 = bs) ∨
      ((tensorCreate c.heap dims).2 ≠ 0 ∧
        (HasRoom (tensorCreate c.heap dims).1 (tensorCreate c.heap dims).2 (4 * product dims) ↔
          4 * product dims < 2 ^ 32)) := by
  have hsize : tensorSize = (40#32).toNat := rfl
  have hforty : tensorSize = 40 := rfl
  have hh : headerSize = 16 := rfl
  unfold tensorCreate
  rw [hsize]
  rcases kmalloc_cases h (40#32).toNat with ⟨he, -⟩ | ⟨b, hfind, hpos, he⟩
  · rw [he]
    exact .inl ⟨rfl, h.blocks_eq⟩
  · rw [he]
    dsimp only
    rw [if_neg (by omega)]
    have hnew := inv_takeBlock h hfind hpos
    set t := b.addr + headerSize
    have hfields : WritesIn t tensorSize (takeBlock c.heap b.addr (align4 (40#32).toNat))
        (((takeBlock c.heap b.addr (align4 (40#32).toNat)).store (t + 16) dims.length).store
          (t + 20) 1) :=
      ((WritesIn.refl ..).store (by omega) (by omega)).store (by omega) (by omega)
    obtain ⟨hwrites, hcount⟩ := storeDims_spec (i := 0) (by omega : 0 + dims.length ≤ 4) 1 hfields
    split
    · next hp hloop =>
      rw [hloop] at hwrites
      exact .inl ⟨rfl, h.blocks_kfree_new hfind hpos hwrites⟩
    · next hp count hloop =>
      rw [hloop] at hwrites hcount
      have hfilled := hnew.writesIn mem_cons_self hwrites
      split_ifs with hzero hnull
      · exact .inl ⟨rfl, h.blocks_kfree_new hfind hpos hwrites⟩
      · have hsame : (kmalloc hp (u32 (count * 4))).1 = hp := by
          rcases kmalloc_cases hfilled (u32 (count * 4)) with ⟨hfail, -⟩ | ⟨d, -, -, hd⟩
          · exact congrArg Prod.fst hfail
          · rw [hd] at hnull
            omega
        rw [hsame]
        exact .inl ⟨rfl, h.blocks_kfree_new hfind hpos (hwrites.store (by omega) (by omega))⟩
      · have hroom := hasRoom_data hfilled mem_cons_self (BitVec.ofNat 32 (count * 4))
          (4 * product dims)
        obtain ⟨hfits, hbound⟩ := hroom hnull
        obtain ⟨hprod, -⟩ := foldl_createStep _ 1 count (by norm_num) hcount.symm
        rw [one_mul] at hprod
        refine .inr ⟨(by omega : t ≠ 0), hbound, fun hlt => hfits ?_⟩
        rw [BitVec.toNat_ofNat, hprod, Nat.mul_comm]
        exact (Nat.mod_eq_of_lt (Nat.mul_comm 4 _ ▸ hlt)).ge

/-- In every run of the heap, `tensor_create` with at most four dimensions gives the elements enough
room, or leaves the blocks as they were, exactly when it does not succeed with 4 GiB or more. -/
theorem tensorCreate_room_iff (minStart : BitVec 32) (mem : ℕ → ℕ) (calls : List Call)
    (hcalls : Runs.Admissible step Legal (Client.init minStart mem) calls)
    (dims : List (BitVec 32)) (hdims : dims.length ≤ 4) :
    let hp := (Runs.run step (Client.init minStart mem) calls).heap
    let r := tensorCreate hp dims
    ((r.2 ≠ 0 → HasRoom r.1 r.2 (4 * product dims)) ∧ (r.2 = 0 → blocks r.1 = blocks hp)) ↔
      (r.2 ≠ 0 → 4 * product dims < 2 ^ 32) := by
  intro hp r
  by_cases hfit : WindowFits minStart
  · obtain ⟨bs, hinv⟩ := inv_run hfit hcalls
    rcases tensorCreate_spec hinv hdims with ⟨hnull, hblocks⟩ | ⟨hne, hroom⟩
    · have hsame : blocks r.1 = blocks hp := hblocks.trans hinv.blocks_eq.symm
      exact iff_of_true ⟨fun hne => absurd hnull hne, fun _ => hsame⟩ fun hne => absurd hnull hne
    · exact ⟨fun hall _ => hroom.1 (hall.1 hne), fun hlt => ⟨fun _ => hroom.2 (hlt hne),
        fun hnull => absurd hnull hne⟩⟩
  · have hinit : hp = init minStart mem := congrArg Client.heap (run_of_not_fits hfit hcalls)
    have hfail : r = (hp, 0) := by
      simp [r, hinit, tensorCreate, kmalloc_init_eq hfit]
    rw [hfail]
    exact iff_of_true ⟨fun hne => absurd rfl hne, fun _ => rfl⟩ fun hne => absurd rfl hne

theorem tensorCreate_room_six :
    let r := tensorCreate (init 0 fun _ => 0) [2, 3]
    (r.2 ≠ 0 → HasRoom r.1 r.2 24) ∧ (r.2 = 0 → blocks r.1 = blocks (init 0 fun _ => 0)) :=
  (tensorCreate_room_iff 0 (fun _ => 0) [] trivial [2, 3] (by decide)).2 fun _ => by decide

/-- The bytes of `2 ^ 30 + 1` elements wrap to 4. -/
theorem tensorCreate_no_room :
    (tensorCreate (init 0 fun _ => 0) [0x40000001]).2 ≠ 0 ∧
      ¬ HasRoom (tensorCreate (init 0 fun _ => 0) [0x40000001]).1
        (tensorCreate (init 0 fun _ => 0) [0x40000001]).2 (4 * product [0x40000001]) := by
  have hne : (tensorCreate (init 0 fun _ => 0) [0x40000001]).2 ≠ 0 := by decide +kernel
  obtain ⟨bs, hinv⟩ := inv_init (by decide : WindowFits 0) fun _ => 0
  refine ⟨hne, fun hroom => ?_⟩
  have hdims : ([0x40000001] : List (BitVec 32)).length ≤ 4 := by decide
  rcases tensorCreate_spec hinv hdims with ⟨hnull, -⟩ | ⟨-, hiff⟩
  · exact hne hnull
  · exact absurd (hiff.1 hroom) (by decide)

end MicroK.Tensor
