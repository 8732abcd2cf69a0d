import MicroK.KheapRuns

/-!
# Where the heap window may lie

`kheap_init` rounds its argument up to a page and takes 32 MiB from there in 32-bit arithmetic.
When the window ends below 4 GiB, every run keeps the chain sound. When it does not, either the
start wraps to the null pointer or the end of the window wraps below its start, and `kmalloc`
refuses every request although the chain holds one large free block.
-/

namespace MicroK.Kheap

open BlockTiling List Runs Nat

variable (minStart : BitVec 32)

def alignedStart : ℕ :=
  (max minStart.toNat heapMinStart + (heapAlign - 1)) / heapAlign * heapAlign

def WindowFits : Prop := alignedStart minStart + heapSize < 2 ^ 32

instance (minStart : BitVec 32) : Decidable (WindowFits minStart) :=
  inferInstanceAs (Decidable (_ < _))

variable (mem : ℕ → ℕ)

theorem init_start :
    (init minStart mem).start = (init minStart mem).physStart := rfl

theorem init_physStart :
    (init minStart mem).physStart =
      if max minStart.toNat heapMinStart + (heapAlign - 1) < 2 ^ 32 then alignedStart minStart
      else 0 := by
  have hmax : (if minStart.toNat > heapMinStart then minStart.toNat else heapMinStart) =
      max minStart.toNat heapMinStart := by
    rcases lt_or_ge heapMinStart minStart.toNat with h | h
    · rw [if_pos h, max_eq_left h.le]
    · rw [if_neg (not_lt.2 h), max_eq_right h]
  have hmask := and_high_mask (k := 12)
    (u32_lt (max minStart.toNat heapMinStart + (heapAlign - 1))) (by norm_num)
  change alignUpU32 (if minStart.toNat > heapMinStart then minStart.toNat else heapMinStart)
    heapAlign = _
  rw [hmax, alignUpU32]
  apply hmask.trans
  split_ifs with hwrap
  · rw [u32_of_lt hwrap]
    rfl
  · have hsmall : u32 (max minStart.toNat heapMinStart + (heapAlign - 1)) < 2 ^ 12 := by
      simp only [u32, heapAlign, heapMinStart] at hwrap ⊢
      omega
    rw [div_eq_of_lt hsmall, zero_mul]

theorem init_headerAt :
    HeaderAt (init minStart mem).mem
      ⟨(init minStart mem).physStart, heapSize - headerSize, true⟩ 0 := by
  generalize hbase : (init minStart mem).physStart = base
  have hinit : (init minStart mem).mem = Function.update (Function.update (Function.update
      (Function.update mem (base + 4) (heapSize - headerSize)) base 0) (base + 8) kheapMagic)
      (base + 12) 1 := by
    rw [← hbase]
    rfl
  rw [hinit]
  constructor <;> simp

variable {minStart : BitVec 32}

theorem windowFits_bounds (h : WindowFits minStart) (mem : ℕ → ℕ) :
    (init minStart mem).physStart = alignedStart minStart ∧ 0 < alignedStart minStart := by
  unfold WindowFits at h
  have hpos : heapMinStart ≤ alignedStart minStart := by
    simp only [alignedStart, heapMinStart, heapAlign]
    omega
  refine ⟨?_, lt_of_lt_of_le (by decide) hpos⟩
  rw [init_physStart, if_pos]
  simp only [alignedStart, heapSize, heapAlign] at h ⊢
  omega

theorem fills_init (h : WindowFits minStart) (mem : ℕ → ℕ) :
    Fills (init minStart mem) (init minStart mem).physStart
      [⟨(init minStart mem).physStart, heapSize - headerSize, true⟩] := by
  obtain ⟨hphys, hpos⟩ := windowFits_bounds h mem
  have hend : (init minStart mem).physStart + headerSize + (heapSize - headerSize) =
      (init minStart mem).physStart + heapSize := by
    have hh : headerSize ≤ heapSize := by decide
    omega
  refine ⟨⟨?_, ?_⟩, le_rfl, ⟨rfl, hend⟩, init_headerAt minStart mem, trivial⟩
  · rw [hphys]
    exact hpos
  · rw [hphys]
    exact h

theorem inv_init (h : WindowFits minStart) (mem : ℕ → ℕ) :
    ∃ bs, Inv (Client.init minStart mem) bs := by
  have hsize : 4 ∣ heapSize - headerSize := by decide
  refine ⟨_, fills_init h mem, rfl, isChain_singleton _, ?_,
    granular_cons.2 ⟨hsize, nofun⟩, nofun, nodup_nil, nofun, ?_⟩
  · change 4 ∣ (init minStart mem).physStart
    rw [(windowFits_bounds h mem).1]
    exact Dvd.dvd.mul_left (by decide) _
  · simp

theorem pairwise_live {c : Client} {bs : List Block} (h : Inv c bs) :
    c.live.Pairwise (fun q r => q.1 + q.2 ≤ r.1 ∨ r.1 + r.2 ≤ q.1) := by
  have hne : c.live.Pairwise (fun q r => q.1 ≠ r.1) := pairwise_map.1 h.live_nodup
  refine List.Pairwise.imp_of_mem (fun {q r} hq hr hqr => ?_) hne
  obtain ⟨-, b, hb, -, hba, hqs⟩ := h.live_mem q hq
  obtain ⟨-, d, hd, -, hda, hrs⟩ := h.live_mem r hr
  have hdisj := h.fills.tiles.disjoint hb hd (by omega)
  omega

theorem Inv.sound {c : Client} {bs : List Block} (h : Inv c bs) : Sound c bs where
  start_eq := h.headAddr_eq.symm
  laid := h.fills.laid
  tiles := h.fills.tiles
  sum_eq := add_left_cancel h.fills.tiles.sum_sizes
  separated := h.separated
  aligned _ hb := h.fills.tiles.dvd_addr (by decide) h.aligned h.granular hb
  payload q hq := (h.live_mem q hq).2
  disjoint := pairwise_live h
  kfree_other _ hlegal hlive := kfree_other_eq h hlegal hlive
  kmalloc_first _ hn := served_kmalloc h hn

theorem kmalloc_init_eq (h : ¬ WindowFits minStart) (mem : ℕ → ℕ) (n : ℕ) :
    kmalloc (init minStart mem) n = (init minStart mem, 0) := by
  rw [kmalloc]
  split_ifs with hzero
  · rfl
  · change kmallocLoop (heapSize / headerSize + 1) _ _ _ = _
    rw [kmallocLoop, init_start]
    have hphys := init_physStart minStart mem
    split_ifs at hphys with hwrap
    · have hout : headerInHeap (init minStart mem) (init minStart mem).physStart = false := by
        simp only [headerInHeap, hphys, WindowFits, alignedStart, u32, heapAlign, heapSize,
          heapMinStart, headerSize, le_refl, decide_true, Bool.true_and, decide_eq_false_iff_not,
          not_le] at h hwrap ⊢
        omega
      rw [headerOk, hout]
      simp
    · rw [if_pos hphys]

theorem not_sound_init (h : ¬ WindowFits minStart) (mem : ℕ → ℕ) (bs : List Block) :
    ¬ Sound (Client.init minStart mem) bs := by
  intro hs
  have hserved := hs.kmalloc_first 4#32 (by decide)
  have hhead := init_headerAt minStart mem
  have hheap : heapSize = 0x2000000 := rfl
  have hh : headerSize = 16 := rfl
  have halign : align4 (4#32).toNat = 4 := by decide
  have hnull : (kmalloc (Client.init minStart mem).heap (4#32).toNat).2 = 0 :=
    congrArg Prod.snd (kmalloc_init_eq h mem _)
  rcases hserved with ⟨-, hwrap | hnone⟩ | ⟨b, -, hb, -⟩
  · exact absurd hwrap (by decide)
  · cases bs with
    | nil =>
      have ht : _ = _ + heapSize := hs.tiles
      omega
    | cons b bs =>
      have hba : b.addr = (init minStart mem).physStart := hs.tiles.1
      have hbsize : b.size = heapSize - headerSize := by
        rw [← hs.laid.1.size_eq, hba]
        exact hhead.size_eq
      have hbfree : b.free = true := by
        have hflag : b.free.toNat = 1 := by
          rw [← hs.laid.1.free_eq, hba]
          exact hhead.free_eq
        cases hf : b.free with
        | true => rfl
        | false => simp [hf] at hflag
      have := hnone b mem_cons_self hbfree
      omega
  · omega

/-- Every legal run from `kheap_init(minStart)` keeps the chain sound exactly when the window
fits below 4 GiB. -/
theorem sound_runs_iff_windowFits (minStart : BitVec 32) (mem : ℕ → ℕ) :
    (∀ calls, Runs.Admissible step Legal (Client.init minStart mem) calls →
      ∃ bs, Sound (Runs.run step (Client.init minStart mem) calls) bs) ↔ WindowFits minStart := by
  constructor
  · intro hall
    by_contra hfit
    obtain ⟨bs, hs⟩ := hall [] trivial
    exact not_sound_init hfit mem bs hs
  · intro hfit calls hcalls
    obtain ⟨bs, hinv⟩ := run_invariant (I := fun c => ∃ bs, Inv c bs)
      (fun c call h hlegal => inv_step h hlegal) _ calls (inv_init hfit mem) hcalls
    exact ⟨bs, hinv.sound⟩

/-- With the window at the top of the address space no run is sound, not even the empty one. -/
theorem high_window_unsound :
    Runs.Admissible step Legal (Client.init 0xFF000000#32 (fun _ => 0)) [] ∧
      ∀ bs, ¬ Sound (Runs.run step (Client.init 0xFF000000#32 (fun _ => 0)) []) bs :=
  ⟨trivial, fun bs => not_sound_init (by decide) _ bs⟩

end MicroK.Kheap
