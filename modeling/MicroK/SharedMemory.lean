import MicroK.BootLayout

/-!
# Shared memory segments

The table of `ipc.c` over the page allocator, whose other clients give back no pages of a segment.
For each segment the attaches that were not detached are counted, without the 32-bit limit of its
reference count.
-/

namespace MicroK.Ipc

open Function (update update_eq_self update_of_ne update_self)

open Pmm Boot

structure Segment where
  key : BitVec 32
  size : BitVec 32
  addr : BitVec 32
  refCount : BitVec 32
  active : Bool

structure Table where
  segments : Fin 16 → Segment
  pmm : State

def Table.set (t : Table) (i : Fin 16) (g : Segment) (pmm : State) : Table :=
  ⟨update t.segments i g, pmm⟩

def ipcInit (t : Table) : Table :=
  { t with segments := fun i => { t.segments i with active := false, refCount := 0 } }

def shmLookupKey (t : Table) (key : BitVec 32) : Option (Fin 16) :=
  (List.finRange 16).find? fun i => (t.segments i).active && (t.segments i).key == key

/-- The id of the segment, where the C function returns 1, and the table. -/
def shmCreate (t : Table) (key size : BitVec 32) : Option (Fin 16) × Table :=
  if size = 0 then (none, t)
  else
    match shmLookupKey t key with
    | some id => (some id, t)
    | none =>
      match (List.finRange 16).find? fun i => !(t.segments i).active with
      | none => (none, t)
      | some i =>
        let region := allocRegion t.pmm size
        if region.2 = 0 then (none, { t with pmm := region.1 })
        else (some i, t.set i ⟨key, size, .ofNat 32 region.2, 0, true⟩ region.1)

/-- The check that attaching, detaching and destroying begin with. -/
def activeId (t : Table) (id : ℕ) : Option (Fin 16) :=
  if h : id < 16 then if (t.segments ⟨id, h⟩).active then some ⟨id, h⟩ else none else none

def shmAttach (t : Table) (id : ℕ) : Option (BitVec 32 × BitVec 32) × Table :=
  match activeId t id with
  | none => (none, t)
  | some i =>
    let g := t.segments i
    (some (g.addr, g.size), t.set i { g with refCount := g.refCount + 1 } t.pmm)

def shmDetach (t : Table) (id : ℕ) : Bool × Table :=
  match activeId t id with
  | none => (false, t)
  | some i =>
    let g := t.segments i
    if 0 < g.refCount then (true, t.set i { g with refCount := g.refCount - 1 } t.pmm)
    else (true, t)

def shmDestroy (t : Table) (id : ℕ) : Bool × Table :=
  match activeId t id with
  | none => (false, t)
  | some i =>
    let g := t.segments i
    if 0 < g.refCount then (false, t)
    else (true, t.set i { g with active := false, refCount := 0 } (freeRegion t.pmm g.addr g.size))

/-- The pages of a segment, as many as its size takes. -/
def Segment.pages (g : Segment) : Finset ℕ :=
  Finset.Ico (g.addr.toNat / pageSize)
    (g.addr.toNat / pageSize + (g.size.toNat + (pageSize - 1)) / pageSize)

inductive Call
  | create (key size : BitVec 32)
  | attach (id : ℕ)
  | detach (id : ℕ)
  | destroy (id : ℕ)
  | other (op : Op)

structure World extends Table where
  attached : Fin 16 → ℕ
  attaches : ℕ

def World.start (t : Table) : World := ⟨ipcInit t, fun _ => 0, 0⟩

def World.step (w : World) : Call → World
  | .create key size =>
    let created := shmCreate w.toTable key size
    { w with
      toTable := created.2
      attached := fun i =>
        if created.1 = some i ∧ (w.segments i).active = false then 0 else w.attached i }
  | .attach id =>
    match activeId w.toTable id with
    | none => w
    | some i =>
      { w with
        toTable := (shmAttach w.toTable id).2
        attached := update w.attached i (w.attached i + 1)
        attaches := w.attaches + 1 }
  | .detach id =>
    match activeId w.toTable id with
    | none => w
    | some i =>
      { w with
        toTable := (shmDetach w.toTable id).2
        attached := update w.attached i (w.attached i - 1) }
  | .destroy id => { w with toTable := (shmDestroy w.toTable id).2 }
  | .other op => { w with pmm := Pmm.step w.pmm op }

/-- The other clients give back pages of their own. -/
def World.Allowed (w : World) : Call → Prop
  | .other op => ∀ i, (w.segments i).active → ∀ b ∈ (w.segments i).pages, ¬ Covers op b
  | _ => True

def Segment.Held (pmm : State) (g : Segment) : Prop :=
  g.active → g.addr.toNat % pageSize = 0 ∧ ∀ b ∈ g.pages, b < pmm.maxBlocks ∧ pmm.isSet b

def Segment.Apart (g g' : Segment) : Prop :=
  g.active → g'.active → g.key ≠ g'.key ∧ Disjoint g.pages g'.pages

structure Placed (t : Table) : Prop where
  counted : WellCounted t.pmm
  held : ∀ i, (t.segments i).Held t.pmm
  apart : ∀ i j, i ≠ j → (t.segments i).Apart (t.segments j)

variable {t : Table} {i : Fin 16}

theorem Table.set_self (t : Table) (i : Fin 16) (g : Segment) (pmm : State) :
    (t.set i g pmm).segments i = g := by
  simp only [Table.set, update_self]

theorem Table.set_of_ne (t : Table) {i j : Fin 16} (hj : j ≠ i) (g : Segment) (pmm : State) :
    (t.set i g pmm).segments j = t.segments j := by
  simp only [Table.set, update_of_ne hj]

variable (h : Placed t)
include h

theorem Placed.other (op : Op)
    (hop : ∀ i, (t.segments i).active → ∀ b ∈ (t.segments i).pages, ¬ Covers op b) :
    Placed { t with pmm := Pmm.step t.pmm op } := by
  refine ⟨wellCounted_step t.pmm op h.counted, fun i hi => ⟨(h.held i hi).1, fun b hb => ?_⟩,
    h.apart⟩
  obtain ⟨hmax, hset⟩ := (h.held i hi).2 b hb
  exact ⟨by rwa [step_maxBlocks], isSet_step_of_not_covers h.counted op (hop i hi b hb) hset⟩

theorem Placed.set {g : Segment} {pmm : State} (hcounted : WellCounted pmm)
    (hheld : ∀ j ≠ i, (t.segments j).Held pmm) (hg : g.Held pmm)
    (hapart : ∀ j ≠ i, (t.segments j).Apart g) : Placed (t.set i g pmm) := by
  refine ⟨hcounted, fun j => ?_, fun j k hne => ?_⟩
  · by_cases hji : j = i
    · rwa [hji, t.set_self]
    · rw [t.set_of_ne hji]
      exact hheld j hji
  · by_cases hji : j = i
    · have hki : k ≠ i := hji ▸ hne.symm
      rw [hji, t.set_self, t.set_of_ne hki]
      exact fun hg hk => ⟨(hapart k hki hk hg).1.symm, (hapart k hki hk hg).2.symm⟩
    · rw [t.set_of_ne hji]
      by_cases hki : k = i
      · rw [hki, t.set_self]
        exact hapart j hji
      · rw [t.set_of_ne hki]
        exact h.apart j k hne

theorem Placed.setRefCount (refCount : BitVec 32) :
    Placed (t.set i { t.segments i with refCount } t.pmm) :=
  h.set h.counted (fun j _ => h.held j) (h.held i) fun j hj => h.apart j i hj

theorem Placed.create {key size : BitVec 32}
    (hkey : ∀ j, (t.segments j).active → (t.segments j).key ≠ key)
    (hne : (allocRegion t.pmm size).2 ≠ 0) :
    Placed (t.set i ⟨key, size, .ofNat 32 (allocRegion t.pmm size).2, 0, true⟩
      (allocRegion t.pmm size).1) := by
  have hbits := (handedOut_bits h.counted (.allocRegion size)).1
  have hother := h.other (.allocRegion size) fun _ _ _ _ => id
  rcases allocRegion_cases t.pmm h.counted.max_lt size with he | ⟨start, _, _, _, he⟩
  · exact absurd (congrArg Prod.snd he) hne
  have haddr : (BitVec.ofNat 32 (allocRegion t.pmm size).2).toNat = (allocRegion t.pmm size).2 := by
    rw [he, BitVec.toNat_ofNat, Nat.mod_eq_of_lt (u32_lt _)]
  have hpages : Segment.pages ⟨key, size, .ofNat 32 (allocRegion t.pmm size).2, 0, true⟩ =
      handedOut t.pmm (.allocRegion size) := by
    rw [Segment.pages, haddr]
    exact (if_neg hne).symm
  refine h.set hother.counted (fun j _ => hother.held j) (fun _ => ⟨?_, fun b hb => ?_⟩) ?_
  · rw [haddr, he]
    unfold u32 pageSize
    omega
  · rw [hpages] at hb
    exact ⟨(step_maxBlocks t.pmm (.allocRegion size)).symm ▸ (hbits b hb).1, (hbits b hb).2.2⟩
  · refine fun j _ hj _ => ⟨hkey j hj, Finset.disjoint_left.mpr fun b hb hnew => ?_⟩
    have hclear := (hbits b (hpages ▸ hnew)).2.1
    rw [((h.held j hj).2 b hb).2] at hclear
    cases hclear

theorem Placed.isSet_free (hi : (t.segments i).active) (b : ℕ) :
    (freeRegion t.pmm (t.segments i).addr (t.segments i).size).isSet b =
      (t.pmm.isSet b && decide (b ∉ (t.segments i).pages)) := by
  have hregion : InRegion (t.segments i).addr (t.segments i).size b ∧ b < t.pmm.maxBlocks ↔
      b ∈ (t.segments i).pages := by
    have hmax := h.counted.max_lt
    obtain ⟨haligned, hused⟩ := h.held i hi
    have hlast := hused ((t.segments i).addr.toNat / pageSize +
      (((t.segments i).size.toNat + (pageSize - 1)) / pageSize - 1))
    have hin := hused b
    unfold Segment.pages pageSize at *
    simp only [Finset.mem_Ico] at hlast hin ⊢
    by_cases hb : b < t.pmm.maxBlocks
    · rw [inRegion_iff _ _ (by omega)]
      unfold pageSize u32
      omega
    · exact iff_of_false (fun h => hb h.2) fun h => hb (hin h).1
  rw [isSet_freeRegion, decide_eq_decide.mpr hregion, decide_not]

theorem Placed.destroy (hi : (t.segments i).active) :
    Placed (t.set i { t.segments i with active := false, refCount := 0 }
      (freeRegion t.pmm (t.segments i).addr (t.segments i).size)) := by
  refine h.set (wellCounted_step t.pmm (.freeRegion _ _) h.counted)
    (fun j hj hactive => ⟨(h.held j hactive).1, fun b hb => ?_⟩) nofun fun _ _ _ => nofun
  obtain ⟨hmax, hset⟩ := (h.held j hactive).2 b hb
  have hout := Finset.disjoint_left.mp (h.apart j i hj hactive hi).2 hb
  exact ⟨(step_maxBlocks t.pmm (.freeRegion _ _)).symm ▸ hmax,
    by rw [h.isSet_free hi, hset, decide_eq_true hout]; rfl⟩

omit h

theorem shmCreate_cases (t : Table) (key size : BitVec 32) :
    ((shmCreate t key size).2 = t ∧
      ∀ i, (shmCreate t key size).1 = some i → (t.segments i).active) ∨
    shmCreate t key size = (none, { t with pmm := Pmm.step t.pmm (.allocRegion size) }) ∨
    ∃ i, (∀ j, (t.segments j).active → (t.segments j).key ≠ key) ∧
      (t.segments i).active = false ∧ (allocRegion t.pmm size).2 ≠ 0 ∧
      shmCreate t key size = (some i, t.set i
        ⟨key, size, .ofNat 32 (allocRegion t.pmm size).2, 0, true⟩ (allocRegion t.pmm size).1) := by
  rw [shmCreate]
  split
  · exact .inl ⟨rfl, nofun⟩
  cases hkey : shmLookupKey t key with
  | some id =>
    refine .inl ⟨rfl, fun i hi => ?_⟩
    cases hi
    exact (Bool.and_eq_true _ _ ▸ List.find?_some hkey).1
  | none =>
    cases hslot : (List.finRange 16).find? fun i => !(t.segments i).active with
    | none => exact .inl ⟨rfl, nofun⟩
    | some i =>
      by_cases hnull : (allocRegion t.pmm size).2 = 0
      · exact .inr (.inl (if_pos hnull))
      · refine .inr (.inr ⟨i, fun j hj heq => ?_, ?_, hnull, if_neg hnull⟩)
        · have hfree := List.find?_eq_none.mp hkey j (List.mem_finRange j)
          simp [hj, heq] at hfree
        · simpa using List.find?_some hslot

theorem Placed.shmCreate (h : Placed t) (key size : BitVec 32) :
    Placed (shmCreate t key size).2 := by
  rcases shmCreate_cases t key size with ⟨htable, _⟩ | hfull | ⟨i, hkey, _, hne, hnew⟩
  · rwa [htable]
  · rw [hfull]
    exact h.other (.allocRegion size) fun _ _ _ _ => id
  · rw [hnew]
    exact h.create hkey hne

theorem activeId_eq_some {id : ℕ} (h : activeId t id = some i) :
    i.val = id ∧ (t.segments i).active := by
  unfold activeId at h
  split at h
  · split at h
    · cases h
      exact ⟨rfl, ‹_›⟩
    · cases h
  · cases h

structure World.Inv (w : World) : Prop where
  placed : Placed w.toTable
  le : ∀ i, w.attached i ≤ w.attaches
  counts : w.attaches < 2 ^ 32 → ∀ i, (w.segments i).active →
    (w.segments i).refCount.toNat = w.attached i

variable {w : World}

theorem World.Inv.setRefCount (h : w.Inv) (i : Fin 16) {n attaches : ℕ} {refCount : BitVec 32}
    (hle : w.attaches ≤ attaches) (hn : n ≤ attaches)
    (hcount : attaches < 2 ^ 32 → (w.segments i).active → refCount.toNat = n) :
    World.Inv ⟨w.toTable.set i { w.segments i with refCount } w.pmm,
      update w.attached i n, attaches⟩ := by
  refine ⟨h.placed.setRefCount refCount, fun j => ?_, fun hlt j hj => ?_⟩
  · by_cases hji : j = i
    · simpa only [hji, update_self] using hn
    · simpa only [update_of_ne hji] using (h.le j).trans hle
  · by_cases hji : j = i
    · simp only [hji, w.toTable.set_self, update_self] at hj ⊢
      exact hcount hlt hj
    · simp only [w.toTable.set_of_ne hji, update_of_ne hji] at hj ⊢
      exact h.counts (hle.trans_lt hlt) j hj

theorem World.Inv.create (h : w.Inv) (key size : BitVec 32) :
    (w.step (.create key size)).Inv := by
  have hle : ∀ i, (w.step (.create key size)).attached i ≤ w.attaches := fun i => by
    by_cases hnew : (shmCreate w.toTable key size).1 = some i ∧ (w.segments i).active = false
    · exact (if_pos hnew).trans_le (Nat.zero_le _)
    · exact (if_neg hnew).trans_le (h.le i)
  refine ⟨h.placed.shmCreate key size, hle, fun hlt j hj => ?_⟩
  rcases shmCreate_cases w.toTable key size with ⟨htable, _⟩ | hfull | ⟨i, _, hfree, _, hnew⟩
  · simp only [World.step, htable] at hj ⊢
    rw [if_neg (by simp [hj])]
    exact h.counts hlt j hj
  · simp only [World.step, hfull] at hj ⊢
    exact h.counts hlt j hj
  · simp only [World.step, hnew, Option.some.injEq] at hj ⊢
    by_cases hji : j = i
    · simp only [hji, w.toTable.set_self, hfree, and_self, if_true]
      rfl
    · rw [w.toTable.set_of_ne hji] at hj ⊢
      rw [if_neg fun heq => hji heq.1.symm]
      exact h.counts hlt j hj

theorem World.Inv.destroy (h : w.Inv) (id : ℕ) : (w.step (.destroy id)).Inv := by
  cases hid : activeId w.toTable id with
  | none => simpa only [World.step, shmDestroy, hid] using h
  | some i =>
    by_cases hcount : 0 < (w.segments i).refCount
    · simpa only [World.step, shmDestroy, hid, if_pos hcount] using h
    · simp only [World.step, shmDestroy, hid, if_neg hcount]
      refine ⟨h.placed.destroy (activeId_eq_some hid).2, h.le, fun hlt j hj => ?_⟩
      by_cases hji : j = i
      · simp only [hji, w.toTable.set_self] at hj
        cases hj
      · simp only [w.toTable.set_of_ne hji] at hj ⊢
        exact h.counts hlt j hj

theorem World.Inv.step (h : w.Inv) (c : Call) (hc : w.Allowed c) : (w.step c).Inv := by
  cases c with
  | create key size => exact h.create key size
  | destroy id => exact h.destroy id
  | other op => exact ⟨h.placed.other op hc, h.le, h.counts⟩
  | attach id =>
    cases hid : activeId w.toTable id with
    | none => simpa only [World.step, hid] using h
    | some i =>
      simp only [World.step, shmAttach, hid]
      refine h.setRefCount i (by omega) (by have := h.le i; omega) fun hlt hactive => ?_
      have hcount := h.counts (by omega) i hactive
      have hle := h.le i
      bv_omega
  | detach id =>
    cases hid : activeId w.toTable id with
    | none => simpa only [World.step, hid] using h
    | some i =>
      have hle := h.le i
      by_cases hpos : 0 < (w.segments i).refCount <;>
        simp only [World.step, shmDetach, hid, hpos, if_true, if_false]
      · refine h.setRefCount i le_rfl (by omega) fun hlt hactive => ?_
        have hcount := h.counts hlt i hactive
        bv_omega
      · have hinv : World.Inv ⟨w.toTable.set i (w.segments i) w.pmm,
            update w.attached i (w.attached i - 1), w.attaches⟩ :=
          h.setRefCount i le_rfl (by omega) fun hlt hactive => by
            have hcount := h.counts hlt i hactive
            have hzero : (w.segments i).refCount.toNat = 0 :=
              congrArg BitVec.toNat (BitVec.le_zero_iff.mp (BitVec.not_lt.mp hpos))
            exact hzero.trans (by omega)
        rwa [Table.set, update_eq_self] at hinv

theorem World.inv_start (hcounted : WellCounted t.pmm) : (World.start t).Inv :=
  ⟨⟨hcounted, nofun, fun _ _ _ => nofun⟩, fun _ => le_rfl, nofun⟩

/-- The active segments of every run lie on pages of their own, and only one that nobody is attached
to can be destroyed. -/
theorem segments_sound {cs : List Call} (hcounted : WellCounted t.pmm)
    (hcs : Runs.Admissible World.step World.Allowed (World.start t) cs)
    (hattaches : (Runs.run World.step (World.start t) cs).attaches < 2 ^ 32) :
    let w := Runs.run World.step (World.start t) cs
    (∀ i, (w.segments i).active → ∀ b ∈ (w.segments i).pages, w.pmm.isSet b) ∧
      (∀ i j, (w.segments i).active → (w.segments j).active → i ≠ j →
        (w.segments i).key ≠ (w.segments j).key ∧
          Disjoint (w.segments i).pages (w.segments j).pages) ∧
      ∀ id, (shmDestroy w.toTable id).1 = true →
        ∃ i : Fin 16, i.val = id ∧ (w.segments i).refCount = 0 ∧ w.attached i = 0 ∧
          ∀ b, (shmDestroy w.toTable id).2.pmm.isSet b =
            (w.pmm.isSet b && decide (b ∉ (w.segments i).pages)) := by
  intro w
  have hinv : w.Inv := Runs.run_invariant (fun _ c h hc => h.step c hc) _ cs
    (World.inv_start hcounted) hcs
  refine ⟨fun i hi b hb => ((hinv.placed.held i hi).2 b hb).2,
    fun i j hi hj hne => hinv.placed.apart i j hne hi hj, ?_⟩
  intro id hdestroy
  cases hid : activeId w.toTable id with
  | none => simp [shmDestroy, hid] at hdestroy
  | some i =>
    obtain ⟨hval, hactive⟩ := activeId_eq_some hid
    by_cases hcount : 0 < (w.segments i).refCount
    · simp only [shmDestroy, hid, if_pos hcount] at hdestroy
      cases hdestroy
    have hzero : (w.segments i).refCount = 0 := by bv_omega
    refine ⟨i, hval, hzero, ?_, fun b => ?_⟩
    · rw [← hinv.counts hattaches i hactive, hzero]
      rfl
    · simp only [shmDestroy, hid, if_neg hcount]
      exact hinv.placed.isSet_free hactive b

def emptyTable : Table := ⟨fun _ => ⟨0, 0, 0, 0, false⟩, smallPmm⟩

/-- Two segments, one of which is destroyed and its slot taken again, while another client takes and
gives back a page. -/
def sharedCalls : List Call :=
  [.create 7 5000, .create 9 4096, .attach 0, .other .allocBlock, .destroy 1,
    .other (.freeBlock 0x4000), .create 11 4096]

theorem segments_sound_created :
    let w := Runs.run World.step (World.start emptyTable) sharedCalls
    (w.segments 0).pages = {1, 2} ∧ (w.segments 1).pages = {3} ∧
      (∀ b ∈ (w.segments 0).pages, w.pmm.isSet b) ∧
      Disjoint (w.segments 0).pages (w.segments 1).pages ∧
      (shmDestroy w.toTable 0).1 = false ∧ (shmDestroy w.toTable 1).1 = true ∧
      ∀ b, (shmDestroy w.toTable 1).2.pmm.isSet b =
        (w.pmm.isSet b && decide (b ∉ (w.segments 1).pages)) := by
  intro w
  have hown : ∀ i, ((Runs.run World.step (World.start emptyTable)
      (sharedCalls.take 5)).segments i).active → 4 ∉ ((Runs.run World.step (World.start emptyTable)
        (sharedCalls.take 5)).segments i).pages := by decide +kernel
  have hcalls : Runs.Admissible World.step World.Allowed (World.start emptyTable) sharedCalls := by
    refine ⟨trivial, trivial, trivial, fun _ _ _ _ => id, trivial, ?_, trivial, trivial⟩
    rintro i hi b hb rfl
    exact hown i hi hb
  obtain ⟨hset, hapart, hdestroy⟩ :=
    @segments_sound emptyTable sharedCalls wellCounted_smallPmm hcalls (by decide +kernel)
  have hactive : (w.segments 0).active ∧ (w.segments 1).active := by decide +kernel
  have hfreed : (shmDestroy w.toTable 1).1 = true := by decide +kernel
  obtain ⟨i, hi, -, -, hbits⟩ := hdestroy 1 hfreed
  obtain rfl : i = 1 := Fin.ext hi
  exact ⟨by decide +kernel, by decide +kernel, hset 0 hactive.1,
    (hapart 0 1 hactive.1 hactive.2 (by decide)).2, by decide +kernel, hfreed, hbits⟩

theorem World.size_step (c : Call) (hbefore : (w.segments i).active)
    (hafter : ((w.step c).segments i).active) :
    ((w.step c).segments i).size = (w.segments i).size := by
  have hset : ∀ (j : Fin 16) (g : Segment) (pmm : State), (j = i → g.active → g.size =
      (w.segments i).size) → ((w.toTable.set j g pmm).segments i).active →
      ((w.toTable.set j g pmm).segments i).size = (w.segments i).size := by
    intro j g pmm hg hactive
    by_cases hij : i = j
    · rw [← hij, w.toTable.set_self] at hactive ⊢
      exact hg hij.symm hactive
    · rw [w.toTable.set_of_ne hij]
  cases c with
  | other op => rfl
  | create key size =>
    rcases shmCreate_cases w.toTable key size with ⟨htable, _⟩ | hfull | ⟨j, _, hfree, _, hnew⟩
    · simp only [World.step, htable]
    · simp only [World.step, hfull]
    · simp only [World.step, hnew] at hafter ⊢
      refine hset j _ _ (fun hj => ?_) hafter
      rw [hj, hbefore] at hfree
      cases hfree
  | attach id =>
    cases hid : activeId w.toTable id with
    | none => simp only [World.step, hid]
    | some j =>
      simp only [World.step, shmAttach, hid] at hafter ⊢
      exact hset j _ _ (fun hj _ => hj ▸ rfl) hafter
  | detach id =>
    cases hid : activeId w.toTable id with
    | none => simp only [World.step, hid]
    | some j =>
      revert hafter
      simp only [World.step, shmDetach, hid]
      split
      · exact hset j _ _ fun hj _ => hj ▸ rfl
      · exact fun _ => rfl
  | destroy id =>
    revert hafter
    simp only [World.step, shmDestroy]
    split
    · exact fun _ => rfl
    · split
      · exact fun _ => rfl
      · exact hset _ _ _ fun _ => nofun

theorem shmCreate_slot {key size : BitVec 32} (hcreate : (shmCreate t key size).1 = some i) :
    ((shmCreate t key size).2.segments i).active ∧
      ((shmCreate t key size).2.segments i).size =
        (shmLookupKey t key).elim size fun j => (t.segments j).size := by
  revert hcreate
  rw [shmCreate]
  split
  · exact nofun
  cases hkey : shmLookupKey t key with
  | some j =>
    intro hcreate
    cases hcreate
    exact ⟨(Bool.and_eq_true _ _ ▸ List.find?_some hkey).1, rfl⟩
  | none =>
    cases (List.finRange 16).find? fun i => !(t.segments i).active with
    | none => exact nofun
    | some j =>
      intro hcreate
      by_cases hnull : (allocRegion t.pmm size).2 = 0
      · simp only [hnull, if_true] at hcreate
        cases hcreate
      · simp only [hnull, if_false] at hcreate ⊢
        cases hcreate
        rw [t.set_self]
        exact ⟨rfl, rfl⟩

/-- An attach of segment `i` may report the size `n`, now or after a run in which it stays there. -/
def World.Reports (w : World) (i : Fin 16) (n : BitVec 32) : Prop :=
  ∃ cs addr, Runs.Admissible World.step (fun w c => ((w.step c).segments i).active) w cs ∧
    (shmAttach (Runs.run World.step w cs).toTable i).1 = some (addr, n)

theorem World.reports_iff (hactive : (w.segments i).active) (n : BitVec 32) :
    w.Reports i n ↔ (w.segments i).size = n := by
  have hattach : ∀ v : World, (v.segments i).active →
      (shmAttach v.toTable i).1 = some ((v.segments i).addr, (v.segments i).size) := by
    intro v hv
    simp [shmAttach, activeId, i.isLt, hv]
  constructor
  · rintro ⟨cs, addr, hcs, hreport⟩
    obtain ⟨hstill, hsize⟩ := Runs.run_invariant
      (I := fun v : World => (v.segments i).active ∧ (v.segments i).size = (w.segments i).size)
      (fun v c hv hc => ⟨hc, (World.size_step c hv.1 hc).trans hv.2⟩) w cs ⟨hactive, rfl⟩ hcs
    rw [hattach _ hstill] at hreport
    cases hreport
    exact hsize.symm
  · rintro rfl
    exact ⟨[], _, trivial, hattach w hactive⟩

/-- What an attach reports of a segment that was created and still exists covers the size asked for,
unless the key had a smaller segment already. -/
theorem attach_covers_iff (cs : List Call) (key size : BitVec 32) :
    let w := Runs.run World.step (World.start t) cs
    (∀ i, (shmCreate w.toTable key size).1 = some i →
        ∀ n, (w.step (.create key size)).Reports i n → size ≤ n) ↔
      ∀ j, shmLookupKey w.toTable key = some j → size ≤ (w.segments j).size := by
  intro w
  have hreports : ∀ i, (shmCreate w.toTable key size).1 = some i → ∀ n,
      (w.step (.create key size)).Reports i n ↔
        ((shmLookupKey w.toTable key).elim size fun j => (w.segments j).size) = n := by
    intro i hi n
    obtain ⟨hactive, hsize⟩ := shmCreate_slot hi
    rw [← hsize]
    exact World.reports_iff hactive n
  cases hkey : shmLookupKey w.toTable key with
  | none =>
    refine iff_of_true (fun i hi n hn => ?_) nofun
    rw [hreports i hi n, hkey] at hn
    exact BitVec.le_of_eq hn
  | some j =>
    simp only [hkey, Option.elim_some] at hreports
    constructor
    · intro hcovers k hk
      cases hk
      by_cases hzero : size = 0
      · bv_omega
      have hcreate : (shmCreate w.toTable key size).1 = some j := by
        rw [shmCreate, if_neg hzero, hkey]
      exact hcovers j hcreate _ ((hreports j hcreate _).mpr rfl)
    · intro hle i hi n hn
      exact (hreports i hi n).mp hn ▸ hle j rfl

/-- A key that already has one page is given again when two pages are asked for. -/
theorem attach_reports_smaller :
    let w := Runs.run World.step (World.start emptyTable) [.create 7 4096]
    let created := shmCreate w.toTable 7 8192
    created.1 = some 0 ∧ (shmAttach created.2 0).1.map Prod.snd = some 4096 := by
  decide +kernel

end MicroK.Ipc
