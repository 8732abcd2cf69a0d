import MicroK.KheapWindow

/-!
# Freed blocks restore the chain

An allocation that is freed again leaves the chain of blocks as it was, and when everything is freed
one block is left, except where the window does not fit and starts at the null pointer.
-/

namespace MicroK.Kheap

open BlockTiling List Runs Nat

def blocksFrom (hp : Heap) : ℕ → ℕ → List Block
  | 0, _ => []
  | fuel + 1, curr =>
    if curr = 0 then []
    else ⟨curr, hp.size curr, hp.isFree curr != 0⟩ :: blocksFrom hp fuel (hp.next curr)

/-- The list of blocks that a walk from `heap_start` meets. -/
def blocks (hp : Heap) : List Block := blocksFrom hp loopFuel hp.start

variable {c : Client} {bs : List Block}

theorem blocksFrom_null (hp : Heap) (fuel : ℕ) : blocksFrom hp fuel 0 = [] := by
  cases fuel <;> rfl

theorem blocksFrom_eq {hp : Heap} {a fuel : ℕ} (hf : Fills hp a bs) (hfuel : bs.length < fuel) :
    blocksFrom hp fuel (headAddr bs) = bs := by
  induction bs generalizing a fuel with
  | nil => exact blocksFrom_null hp fuel
  | cons b bs ih =>
    cases fuel with
    | zero => cases hfuel
    | succ fuel =>
      obtain ⟨hsize, -, hfree⟩ := hf.headerAt mem_cons_self
      have hnext : hp.next b.addr = headAddr bs := hf.laid.1.next_eq
      have hflag : (b.free.toNat != 0) = b.free := by cases b.free <;> rfl
      rw [headAddr, blocksFrom, if_neg (hf.addr_pos mem_cons_self).ne', hsize, hfree, hnext,
        hflag, ih hf.tail (lt_of_succ_lt_succ hfuel)]

theorem Inv.blocks_eq (h : Inv c bs) : blocks c.heap = bs := by
  rw [blocks, ← h.headAddr_eq]
  exact blocksFrom_eq h.fills h.length_lt

/-- Freeing a new block restores the chain, also after writes into its payload. -/
theorem Inv.blocks_kfree_new (h : Inv c bs) {n : BitVec 32} {b : Block}
    (hfind : bs.find? (fits (align4 n.toNat)) = some b) (hpos : align4 n.toNat ≠ 0) {hp : Heap}
    (hw : WritesIn (b.addr + headerSize) n.toNat (takeBlock c.heap b.addr (align4 n.toNat)) hp) :
    blocks (kfree hp (b.addr + headerSize)) = bs := by
  have htaken := (inv_takeBlock h hfind hpos).writesIn mem_cons_self hw
  obtain ⟨d, hd, hda, hdu, hds⟩ := mem_allocate_of_find headerSize 4 hfind
  obtain ⟨-, hstart, hfills, -⟩ := kfree_used htaken hd hdu ((pos_of_ne_zero hpos).trans_le hds)
  rw [hda, release_allocate (by decide) h.fills.tiles h.separated hfind] at hfills
  rw [hda, hw.start_eq, takeBlock_start, ← h.headAddr_eq] at hstart
  rw [blocks, hstart]
  exact blocksFrom_eq hfills h.length_lt

theorem Inv.blocks_kfree_kmalloc (h : Inv c bs) (n : BitVec 32) :
    blocks (kfree (kmalloc c.heap n.toNat).1 (kmalloc c.heap n.toNat).2) = blocks c.heap := by
  rcases kmalloc_cases h n.toNat with ⟨he, -⟩ | ⟨b, hfind, hpos, he⟩
  · rw [he, kfree_of_outside h.fills.window (.inl rfl)]
  · rw [he, h.blocks_eq]
    exact h.blocks_kfree_new hfind hpos (WritesIn.refl ..)

theorem Inv.blocks_of_no_live (h : Inv c bs) (hlive : c.live = []) :
    blocks c.heap = [⟨c.heap.physStart, heapSize - headerSize, true⟩] := by
  have hheap : heapSize = 0x2000000 := rfl
  have hfree : ∀ b ∈ bs, b.free = true := by
    intro b hb
    by_contra hused
    obtain ⟨q, hq, -⟩ := h.used_live b hb (Bool.eq_false_of_not_eq_true hused)
    rw [hlive] at hq
    cases hq
  have hsingle := eq_singleton_of_free (by omega) h.fills.tiles h.separated hfree
  rwa [h.blocks_eq, show heapSize = c.heap.physStart + heapSize - c.heap.physStart by omega]

/-- Every order in which the live blocks can be freed ends with no live block. -/
theorem inv_kfree_all (h : ∃ bs, Inv c bs) {order : List (BitVec 32)}
    (horder : (order.map BitVec.toNat).Perm (c.live.map Prod.fst)) :
    (∃ bs, Inv (run step c (order.map .kfree)) bs) ∧
      (run step c (order.map .kfree)).live = [] := by
  induction order generalizing c with
  | nil => exact ⟨h, map_eq_nil_iff.1 horder.nil_eq.symm⟩
  | cons ptr order ih =>
    have hlive : c.isLive ptr.toNat = true :=
      isLive_iff.2 (mem_map.1 (horder.subset mem_cons_self))
    have hrest : (c.live.filter (fun q => q.1 != ptr.toNat)).map Prod.fst =
        (c.live.map Prod.fst).erase ptr.toNat := by
      obtain ⟨bs, hinv⟩ := h
      rw [hinv.live_nodup.erase_eq_filter, filter_map]
      rfl
    refine ih (inv_step h (.inl hlive)) ?_
    exact hrest ▸ (cons_perm_iff_perm_erase.1 horder).2

variable {minStart : BitVec 32} {mem : ℕ → ℕ}

section

variable (hfit : ¬ WindowFits minStart)
include hfit

/-- The window is empty, its end wraps below its start, unless the start itself wraps. -/
theorem kfree_init_eq {ptr : ℕ} (hout : ptr = 0 ∨ ptr < (init minStart mem).physStart ∨
    (init minStart mem).physStart + heapSize ≤ ptr) :
    kfree (init minStart mem) ptr = init minStart mem := by
  have hnone : ptrToHeader (init minStart mem) ptr = none := by
    rw [ptrToHeader]
    split_ifs with hz hwindow hok
    · rfl
    · rfl
    · have hphys := init_physStart minStart mem
      split_ifs at hphys with hwrap
      all_goals
        rw [hphys] at hwindow hout
        simp only [WindowFits, alignedStart, u32, headerSize, heapSize, heapAlign, heapMinStart]
          at hfit hwindow hout hwrap
        omega
    · rfl
  rw [kfree, hnone]

theorem run_of_not_fits {calls : List Call}
    (hcalls : Runs.Admissible step Legal (Client.init minStart mem) calls) :
    run step (Client.init minStart mem) calls = Client.init minStart mem := by
  refine run_invariant (I := fun c => c = Client.init minStart mem) ?_ _ calls rfl hcalls
  rintro c call rfl hlegal
  cases call with
  | kmalloc n => simp only [step, Client.init, kmalloc_init_eq hfit mem n.toNat, if_true]
  | kfree ptr =>
    have hfree : kfree (init minStart mem) ptr.toNat = init minStart mem := by
      rcases hlegal with hlive | hz | hlow | hhigh | hfreed
      · cases hlive
      · exact kfree_init_eq hfit (.inl hz)
      · exact kfree_init_eq hfit (.inr (.inl hlow))
      · exact kfree_init_eq hfit (.inr (.inr hhigh))
      · cases hfreed
    simp [step, Client.init, Client.isLive, hfree]
  | write addr value =>
    obtain ⟨-, q, hq, -⟩ := hlegal
    cases hq

end

theorem blocks_init (hstart : (init minStart mem).start ≠ 0) :
    blocks (init minStart mem) =
      [⟨(init minStart mem).physStart, heapSize - headerSize, true⟩] := by
  obtain ⟨hnext, hsize, -, hfree⟩ := init_headerAt minStart mem
  rw [blocks, loopFuel, blocksFrom, if_neg hstart, init_start, Heap.size, Heap.isFree, Heap.next,
    hnext, hsize, hfree, blocksFrom_null]
  rfl

theorem inv_run (hfit : WindowFits minStart) {calls : List Call}
    (hcalls : Runs.Admissible step Legal (Client.init minStart mem) calls) :
    ∃ bs, Inv (run step (Client.init minStart mem) calls) bs :=
  run_invariant (I := fun c => ∃ bs, Inv c bs) (fun _ _ h hlegal => inv_step h hlegal) _ calls
    (inv_init hfit mem) hcalls

/-- In every run a failed allocation changes nothing, and freeing a new block restores the chain. -/
theorem kmalloc_restores {calls : List Call}
    (hcalls : Runs.Admissible step Legal (Client.init minStart mem) calls) (n : BitVec 32) :
    let hp := (run step (Client.init minStart mem) calls).heap
    ((kmalloc hp n.toNat).2 = 0 → (kmalloc hp n.toNat).1 = hp) ∧
      blocks (kfree (kmalloc hp n.toNat).1 (kmalloc hp n.toNat).2) = blocks hp := by
  intro hp
  by_cases hfit : WindowFits minStart
  · obtain ⟨bs, hinv⟩ := inv_run hfit hcalls
    refine ⟨fun hnull => ?_, hinv.blocks_kfree_kmalloc n⟩
    rcases kmalloc_cases hinv n.toNat with ⟨he, -⟩ | ⟨b, -, -, he⟩
    · exact congrArg Prod.fst he
    · rw [he] at hnull
      exact absurd hnull (succ_ne_zero _)
  · have hinit : hp = init minStart mem := congrArg Client.heap (run_of_not_fits hfit hcalls)
    rw [hinit, kmalloc_init_eq hfit, kfree_init_eq hfit (.inl rfl)]
    exact ⟨fun _ => rfl, rfl⟩

/-- In every run from `kheap_init`, freeing what was just allocated restores the chain and freeing
everything leaves one block, exactly when the start of the heap is not the null pointer. -/
theorem restores_iff (minStart : BitVec 32) (mem : ℕ → ℕ) :
    (∀ calls, Runs.Admissible step Legal (Client.init minStart mem) calls →
      let c := Runs.run step (Client.init minStart mem) calls
      (∀ n : BitVec 32, blocks (kfree (kmalloc c.heap n.toNat).1 (kmalloc c.heap n.toNat).2) =
        blocks c.heap) ∧
      ∀ order : List (BitVec 32), (order.map BitVec.toNat).Perm (c.live.map Prod.fst) →
        blocks (Runs.run step c (order.map .kfree)).heap =
          [⟨(Runs.run step c (order.map .kfree)).heap.physStart, heapSize - headerSize, true⟩]) ↔
      (init minStart mem).start ≠ 0 := by
  constructor
  · intro hall hzero
    have hempty : blocks (init minStart mem) = [] := by
      rw [blocks, hzero, blocksFrom_null]
    have hone := (hall [] trivial).2 [] List.Perm.nil
    exact absurd (hempty.symm.trans hone) (cons_ne_nil _ _).symm
  · intro hstart calls hcalls
    refine ⟨fun n => (kmalloc_restores hcalls n).2, fun order horder => ?_⟩
    by_cases hfit : WindowFits minStart
    · obtain ⟨⟨bs, hfreed⟩, hlive⟩ := inv_kfree_all (inv_run hfit hcalls) horder
      exact hfreed.blocks_of_no_live hlive
    · rw [run_of_not_fits hfit hcalls] at horder ⊢
      rw [map_eq_nil_iff.1 horder.eq_nil]
      exact blocks_init hstart

/-- A start in the last page is rounded up to the null pointer, and the chain is empty. -/
theorem null_start_no_block : blocks (init 0xFFFFF001#32 (fun _ => 0)) = [] := by
  rw [blocks, init_start, init_physStart, if_neg (by decide), blocksFrom_null]

end MicroK.Kheap
