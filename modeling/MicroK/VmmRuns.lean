import MicroK.VmmRefinement

/-!
# Runs of the virtual memory manager

Both formats start with an empty map and follow the abstract map through every run in which the
pages for new tables are there. So they cannot be told apart by the entries, by the results or by
the check of user pointers, which says exactly what the map says.
-/

namespace MicroK.Vmm

open Pmm TableTree

variable {s : Paging} {m : PageMap} {page : ℕ}

theorem userPageLegacy_iff (h : Refines s m) (hpae : s.paeActive = false) (hpage : page < 2 ^ 20) :
    userPageLegacy s (page * pageSize) = true ↔ m.Present page ∧ m.User page := by
  have hdiv : page * pageSize / pageSize = page := Nat.mul_div_cancel _ (by decide)
  have hwalk := legacyTable_false hpae (page * pageSize)
  rw [Paging.legacyTable, nextTable_false, hdiv, hpae, next] at hwalk
  have hentry := h.entry page hpage
  unfold userPageLegacy PageMap.Present PageMap.User
  dsimp only
  by_cases hpde : s.tables s.root (legacyPdIndex (page * pageSize)) &&& 1 = 0
  · rw [if_pos hpde] at hwalk
    rw [entry_of_walk_none (by rw [hpae]; exact hwalk.symm)] at hentry
    rw [if_pos hpde, ← hentry]
    simp
  · rw [if_neg hpde] at hwalk
    have hread : s.entry page = _ := entry_of_walk (by rw [hpae]; exact hwalk.symm)
    rw [hpae, ← hdiv, index_legacy, hdiv, hentry] at hread
    rw [if_neg hpde, if_neg (h.inv.user hpae _ hpde), ← hread, Nat.and_one_is_mod]
    simp only [and_four_eq_zero_iff]
    split_ifs with hp hu
    · simp [hp]
    · simp [hu]
    · simp only [true_iff]
      omega

theorem userPagePae_iff (h : Refines s m) (hpae : s.paeActive = true) (hpage : page < 2 ^ 20) :
    userPagePae s (page * pageSize) = true ↔ m.Present page ∧ m.User page := by
  have hdiv : page * pageSize / pageSize = page := Nat.mul_div_cancel _ (by decide)
  have hwalk := paeGetTable_false hpae (page * pageSize)
  rw [hdiv] at hwalk
  have hentry := h.entry page hpage
  unfold userPagePae PageMap.Present PageMap.User
  rw [hwalk]
  cases hw : s.walk (path s.paeActive page) with
  | none =>
    rw [entry_of_walk_none hw] at hentry
    rw [← hentry]
    simp
  | some t =>
    have hread := entry_of_walk hw
    rw [hpae, ← hdiv, index_pae, hdiv, hentry] at hread
    dsimp only
    rw [← hread, paePresent, paeUser, Nat.and_one_is_mod]
    simp only [and_four_eq_zero_iff]
    split_ifs with hp hu
    · simp [hp]
    · simp [hu]
    · simp only [true_iff]
      omega

theorem userPage_iff (h : Refines s m) (hpage : page < 2 ^ 20) :
    (if s.paeActive then userPagePae s (page * pageSize) else userPageLegacy s (page * pageSize)) =
      true ↔ m.Present page ∧ m.User page := by
  cases hpae : s.paeActive
  · rw [if_neg Bool.false_ne_true]
    exact userPageLegacy_iff h hpae hpage
  · rw [if_pos rfl]
    exact userPagePae_iff h hpae hpage

/-- The loop over the pages of a range visits the pages of its bytes. -/
theorem forall_pages_iff {P : ℕ → Prop} {addr n : ℕ} (hn : 0 < n) :
    (∀ i < ((addr + n - 1) / pageSize * pageSize - addr / pageSize * pageSize) / 0x1000 + 1,
      P (addr / pageSize + i)) ↔ ∀ a, addr ≤ a → a < addr + n → P (a / pageSize) := by
  unfold pageSize
  constructor
  · intro hall a hlo hhi
    have hpage := hall (a / 4096 - addr / 4096) (by omega)
    have hle : addr / 4096 ≤ a / 4096 := Nat.div_le_div_right hlo
    rwa [Nat.add_sub_cancel' hle] at hpage
  · intro hall i hi
    have hbyte : ∃ a, addr ≤ a ∧ a < addr + n ∧ a / 4096 = addr / 4096 + i :=
      ⟨max addr ((addr / 4096 + i) * 4096), by omega⟩
    obtain ⟨a, hlo, hhi, hpage⟩ := hbyte
    rw [← hpage]
    exact hall a hlo hhi

theorem userPtrOk_iff (h : Refines s m) {addr len : ℕ} (haddr : addr < 2 ^ 32)
    (hlen : len < 2 ^ 32) :
    userPtrOk s addr len = true ↔ m.UserRange addr len := by
  have hmax : (if len = 0 then 1 else len) = max len 1 := by
    split_ifs <;> omega
  unfold userPtrOk PageMap.UserRange
  rw [hmax]
  generalize hn : max len 1 = n
  by_cases hzero : addr = 0
  · simp [hzero]
  rw [if_neg hzero]
  by_cases hwrap : 2 ^ 32 ≤ addr + n
  · have hlt : u32 (addr + n) < addr := by
      unfold u32
      omega
    rw [if_pos hlt]
    refine iff_of_false nofun ?_
    rintro ⟨_, hfit, _⟩
    omega
  have hfit : ¬ u32 (addr + n) < addr := by
    rw [u32_of_lt (by omega)]
    omega
  rw [if_neg hfit, alignDownPage_eq haddr, alignDownPage_eq (by omega), List.all_eq_true]
  have hrange : addr + n ≤ 2 ^ 32 - 1 := by omega
  rw [and_iff_right hzero, and_iff_right hrange]
  rw [← forall_pages_iff (P := fun page => m.Present page ∧ m.User page) (by omega)]
  simp only [List.mem_range]
  refine forall₂_congr fun i hi => ?_
  have hshift : addr / pageSize * pageSize + i * 0x1000 = (addr / pageSize + i) * pageSize := by
    unfold pageSize
    omega
  rw [hshift]
  refine userPage_iff h ?_
  unfold pageSize at *
  omega

/-- The calls that change the map; `flags` of `vmm_protect_range` can be any word. -/
inductive Op
  | map (virtualAddr physicalAddr flags : ℕ)
  | protect (virtualAddr size flags : ℕ)

/-- The arguments are words, the physical address is that of a page and no address bit is among the
flags. -/
def Op.WellFormed : Op → Prop
  | .map va pa flags => va < 2 ^ 32 ∧ pa < 2 ^ 32 ∧ pa % pageSize = 0 ∧ flags < 0x1000
  | .protect va size flags => va < 2 ^ 32 ∧ size < 2 ^ 32 ∧ flags < 2 ^ 32

instance : (op : Op) → Decidable op.WellFormed
  | .map _ _ _ => inferInstanceAs (Decidable (_ ∧ _ ∧ _ ∧ _))
  | .protect _ _ _ => inferInstanceAs (Decidable (_ ∧ _ ∧ _))

/-- The page tables and the results so far; only `vmm_protect_range` returns one. -/
def step (s : Paging × List Bool) : Op → Paging × List Bool
  | .map va pa flags => (mapPageExt s.1 va pa flags, s.2)
  | .protect va size flags =>
    let done := protectRange s.1 va size flags
    (done.1, s.2 ++ [done.2])

def PageMap.step (m : PageMap × List Bool) : Op → PageMap × List Bool
  | .map va pa flags => (m.1.map (va / pageSize) pa flags, m.2)
  | .protect va size flags =>
    let done := m.1.protect va size flags
    (done.1, m.2 ++ [done.2])

/-- Every table that the call needs is there or can be allocated. -/
def TablesFound (s : Paging) : Op → Prop
  | .map va _ _ => (s.getTable va true).2 ≠ none
  | .protect _ _ _ => True

instance (s : Paging) : (op : Op) → Decidable (TablesFound s op)
  | .map _ _ _ => inferInstanceAs (Decidable (_ ≠ _))
  | .protect _ _ _ => inferInstanceAs (Decidable True)

def Ok (s : Paging × List Bool) (op : Op) : Prop := op.WellFormed ∧ TablesFound s.1 op

instance (s : Paging × List Bool) (op : Op) : Decidable (Ok s op) :=
  inferInstanceAs (Decidable (_ ∧ _))

structure Follows (pae : Bool) (s : Paging × List Bool) (m : PageMap × List Bool) : Prop where
  map : Refines s.1 m.1
  results : s.2 = m.2
  format : s.1.paeActive = pae

theorem follows_step {pae : Bool} {s : Paging × List Bool} {m : PageMap × List Bool}
    (h : Follows pae s m) {op : Op} (hok : Ok s op) :
      Follows pae (step s op) (PageMap.step m op) := by
  obtain ⟨hwf, hfound⟩ := hok
  cases op with
  | map va pa flags =>
    obtain ⟨hva, hpa, halign, hflags⟩ := hwf
    obtain ⟨hmap, hpae⟩ := refines_mapPageExt h.map hva hpa halign hflags hfound
    exact ⟨hmap, h.results, hpae.trans h.format⟩
  | protect va size flags =>
    obtain ⟨hva, hsize, _⟩ := hwf
    obtain ⟨hmap, hres, hpae⟩ := refines_protectRange h.map hva hsize flags
    refine ⟨hmap, ?_, hpae.trans h.format⟩
    change s.2 ++ [_] = m.2 ++ [_]
    rw [h.results, hres]

theorem follows_run {pae : Bool} (ops : List Op) {s : Paging × List Bool}
    {m : PageMap × List Bool} (h : Follows pae s m) (hok : Runs.Admissible step Ok s ops) :
    Follows pae (Runs.run step s ops) (Runs.run PageMap.step m ops) := by
  induction ops generalizing s m with
  | nil => exact h
  | cons op ops ih => exact ih (follows_step h hok.1) hok.2

theorem refines_of_blank (hcounted : WellCounted s.pmm) (hused : InUse s.pmm s.root)
    (hblank : ∀ i, s.tables s.root i &&& 1 = 0) : Refines s fun _ => 0 := by
  have habsent : ∀ i, next s.paeActive (s.tables s.root i) = none := fun i => if_pos (hblank i)
  refine ⟨⟨hcounted, tree_of_blank habsent hused, fun _ i hi => absurd (hblank i) hi⟩,
    fun page _ => ?_, fun _ _ => by norm_num⟩
  apply entry_of_walk_none
  have hstep : ∀ i p, s.walk (i :: p) = none := by
    intro i p
    rw [Paging.walk, walk, habsent, Option.bind_none]
  unfold path
  split_ifs <;> exact hstep _ _

variable {mem : ℕ → ℕ → ℕ}

/-- The root table is blank and in a fresh page; before that at most one attempt has failed. -/
theorem startPaging_cases {cpuHasPae : Bool} {pmm : State}
    (hs : startPaging cpuHasPae mem pmm = some s) :
    ∃ pmm₁ e, (pmm₁ = pmm ∨ pmm₁ = (allocBlock pmm).1 ∧ (allocBlock pmm).2 = 0) ∧
      (allocBlock pmm₁).2 ≠ 0 ∧ s.pmm = (allocBlock pmm₁).1 ∧
      s.root = (allocBlock pmm₁).2 / pageSize ∧ e &&& 1 = 0 ∧ ∀ i, s.tables s.root i = e := by
  have hroot : ∀ (f e i : ℕ), (Function.update mem f fun _ => e) f i = e := by
    intro f e i
    rw [Function.update_self]
  unfold startPaging at hs
  dsimp only at hs
  split_ifs at hs with hpae hlegacy hzero hzero
  · rw [← Option.some.inj hs]
    exact ⟨pmm, 0, .inl rfl, hpae.2, rfl, rfl, rfl, hroot _ 0⟩
  · have hfailed : (allocBlock pmm).2 = 0 := not_not.mp fun hne => hpae ⟨hlegacy, hne⟩
    rw [← Option.some.inj hs]
    exact ⟨_, 2, .inr ⟨rfl, hfailed⟩, hzero, rfl, rfl, rfl, hroot _ 2⟩
  · rw [← Option.some.inj hs]
    exact ⟨pmm, 2, .inl rfl, hzero, rfl, rfl, rfl, hroot _ 2⟩

theorem refines_startPaging {cpuHasPae : Bool} {pmm : State}
    (hpmm : WellCounted pmm) (hs : startPaging cpuHasPae mem pmm = some s) :
    Refines s fun _ => 0 := by
  obtain ⟨pmm₁, e, hpmm₁, hzero, hpmm', hroot, heven, hblank⟩ := startPaging_cases hs
  have hcounted₁ : WellCounted pmm₁ := by
    rcases hpmm₁ with rfl | ⟨rfl, _⟩
    · exact hpmm
    · exact (allocBlock_table hpmm).1
  obtain ⟨hcounted, -, -, hnew⟩ := allocBlock_table hcounted₁
  obtain ⟨b, _, hb, _, hused⟩ := hnew hzero
  apply refines_of_blank
  · rwa [hpmm']
  · rw [hpmm', hroot, hb, Nat.mul_div_cancel _ (by decide : 0 < pageSize)]
    exact hused
  · intro i
    rw [hblank]
    exact heven

/-- What a page is mapped to, and whether it can be read, written and used by user code. -/
def PageMap.SamePage (m m' : PageMap) (page : ℕ) : Prop :=
  m.physPage page = m'.physPage page ∧ (m.Present page ↔ m'.Present page) ∧
    (m.Writable page ↔ m'.Writable page) ∧ (m.User page ↔ m'.User page)

theorem Refines.samePage (h : Refines s m) (hpage : page < 2 ^ 20) :
    PageMap.SamePage s.entry m page := by
  unfold PageMap.SamePage PageMap.physPage PageMap.Present PageMap.Writable PageMap.User
  rw [h.entry page hpage]
  exact ⟨rfl, Iff.rfl, Iff.rfl, Iff.rfl⟩

/-- After any calls with room for their tables, both formats have given the results of the abstract
map and hold its pages, and `vmm_user_ptr_ok` accepts the ranges that are open to user code in
it. -/
theorem formats_implement_map {cpuHasPae cpuHasPae' : Bool} {mem mem' : ℕ → ℕ → ℕ}
    {pmm pmm' : State} (hpmm : WellCounted pmm) (hpmm' : WellCounted pmm') {legacy pae : Paging}
    (hlegacy : startPaging cpuHasPae mem pmm = some legacy) (hformat : legacy.paeActive = false)
    (hpae : startPaging cpuHasPae' mem' pmm' = some pae) (hformat' : pae.paeActive = true)
    (ops : List Op) (hok : Runs.Admissible step Ok (legacy, []) ops)
    (hok' : Runs.Admissible step Ok (pae, []) ops) :
    let l := Runs.run step (legacy, []) ops
    let p := Runs.run step (pae, []) ops
    let m := Runs.run PageMap.step (fun _ => 0, []) ops
    (l.1.paeActive = false ∧ p.1.paeActive = true) ∧ (l.2 = m.2 ∧ p.2 = m.2) ∧
      (∀ page < 2 ^ 20, PageMap.SamePage l.1.entry m.1 page ∧ PageMap.SamePage p.1.entry m.1 page) ∧
      ∀ addr < 2 ^ 32, ∀ len < 2 ^ 32,
        (userPtrOk l.1 addr len = true ↔ m.1.UserRange addr len) ∧
          (userPtrOk p.1 addr len = true ↔ m.1.UserRange addr len) := by
  intro l p m
  have hl : Follows false l m :=
    follows_run ops ⟨refines_startPaging hpmm hlegacy, rfl, hformat⟩ hok
  have hp : Follows true p m :=
    follows_run ops ⟨refines_startPaging hpmm' hpae, rfl, hformat'⟩ hok'
  refine ⟨⟨hl.format, hp.format⟩, ⟨hl.results, hp.results⟩, fun page hpage => ?_,
    fun addr haddr len hlen => ?_⟩
  · exact ⟨hl.map.samePage hpage, hp.map.samePage hpage⟩
  · exact ⟨userPtrOk_iff hl.map haddr hlen, userPtrOk_iff hp.map haddr hlen⟩

def smallOps : List Op :=
  [.map 0x3FF000 0x5000 7, .map 0x400000 0x6000 7, .protect 0x400000 0x1000 5]

theorem formats_implement_map_small :
    ∃ legacy pae, startPaging false (fun _ _ => 0) smallPmm = some legacy ∧
      startPaging true (fun _ _ => 0) smallPmm = some pae ∧
      (Runs.run step (legacy, []) smallOps).2 = (Runs.run step (pae, []) smallOps).2 := by
  refine ⟨_, _, rfl, rfl, ?_⟩
  obtain ⟨_, ⟨hl, hp⟩, _⟩ := formats_implement_map wellCounted_smallPmm wellCounted_smallPmm
    (rfl : startPaging false (fun _ _ => 0) smallPmm = some _) rfl
    (rfl : startPaging true (fun _ _ => 0) smallPmm = some _) rfl smallOps
    (by decide +kernel) (by decide +kernel)
  rw [hl, hp]

end MicroK.Vmm
