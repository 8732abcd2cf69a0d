import MicroK.PmmRuns
import MicroK.CircularSearch

/-!
# The task scheduler

The task table has 64 slots, of which those below `taskCount` have been used. A task is dead, ready
or running. `task_switch` and `task_kill_current` look for the next live task round the table, and a
killed task gives its stack page back. The saved registers and the page directory, which all tasks
share, are left out: no function reads them back.
-/

namespace MicroK.Tasks

open Nat

open Function (update update_of_ne update_self)

open Pmm CircularSearch Finset

inductive Status
  | dead
  | ready
  | running
deriving DecidableEq

/-- `stackBase` is zero for the boot task, whose stack is not from the page allocator. -/
structure Task where
  stackBase : ℕ
  state : Status

def maxTasks : ℕ := 64

structure Sched where
  tasks : ℕ → Task
  current : ℕ
  taskCount : ℕ
  pmm : State
  halted : Bool

/-- `task_init` on the table that the loader has cleared. -/
def taskInit (pmm : State) : Sched :=
  ⟨fun i => ⟨0, if i = 0 then .running else .dead⟩, 0, 1, pmm, false⟩

def Sched.isDead (s : Sched) (i : ℕ) : Bool := (s.tasks i).state = .dead

def Sched.setState (s : Sched) (i : ℕ) (state : Status) : Sched :=
  { s with tasks := update s.tasks i { s.tasks i with state := state } }

def Sched.fill (s : Sched) (slot : ℕ) : Sched :=
  let stack := allocBlock s.pmm
  if stack.2 = 0 then { s with pmm := stack.1 }
  else { s with pmm := stack.1, tasks := update s.tasks slot ⟨stack.2, .ready⟩ }

def Sched.deadSlot (s : Sched) : Option ℕ := (List.range' 1 (s.taskCount - 1)).find? s.isDead

def taskCreate (s : Sched) : Sched :=
  match s.deadSlot with
  | some slot => s.fill slot
  | none =>
    if s.taskCount ≥ maxTasks then s
    else { s with taskCount := s.taskCount + 1 }.fill s.taskCount

/-- The search that starts behind the current task. -/
def Sched.nextId (s : Sched) : ℕ :=
  search s.isDead s.taskCount s.taskCount ((s.current + 1) % s.taskCount)

def taskSwitch (s : Sched) : Sched :=
  if s.taskCount ≤ 1 then s
  else if s.isDead s.nextId then s
  else ({ s with current := s.nextId }.setState s.current .ready).setState s.nextId .running

/-- The stack page goes back to the allocator, and the task keeps no record of it. -/
def Sched.dropStack (s : Sched) (i : ℕ) : Sched :=
  if (s.tasks i).stackBase ≠ 0 then
    { s with
      pmm := freeBlock s.pmm (BitVec.ofNat 32 (s.tasks i).stackBase)
      tasks := update s.tasks i { s.tasks i with stackBase := 0 } }
  else s

/-- The current task is still running while its successor is searched. -/
def taskKillCurrent (s : Sched) : Sched :=
  if s.taskCount ≤ 1 then { s with halted := true }
  else if s.isDead s.nextId then { s with halted := true }
  else
    (({ s with current := s.nextId }.setState s.current .dead).setState s.nextId .running).dropStack
      s.current

def Sched.Live (s : Sched) (i : ℕ) : Prop := (s.tasks i).state ≠ .dead

instance (s : Sched) (i : ℕ) : Decidable (s.Live i) := inferInstanceAs (Decidable (_ ≠ _))

def Sched.created (s : Sched) : Option ℕ :=
  if (allocBlock s.pmm).2 = 0 then none
  else
    match s.deadSlot with
    | some slot => some slot
    | none => if s.taskCount ≥ maxTasks then none else some s.taskCount

structure Inv (s : Sched) (killed : Finset ℕ) : Prop where
  counted : WellCounted s.pmm
  count_le : s.taskCount ≤ maxTasks
  current_lt : s.current < s.taskCount
  running : ∀ i, (s.tasks i).state = .running ↔ i = s.current
  unused : ∀ i, s.taskCount ≤ i → (s.tasks i).state = .dead
  killed : ∀ i ∈ killed, (s.tasks i).state = .dead
  stack : ∀ i, s.Live i → (s.tasks i).stackBase ≠ 0 →
    ∃ b < 2 ^ 20, (s.tasks i).stackBase = b * pageSize ∧ InUse s.pmm b
  distinct : ∀ i j, s.Live i → s.Live j → i ≠ j → (s.tasks i).stackBase ≠ 0 →
    (s.tasks i).stackBase ≠ (s.tasks j).stackBase

variable {s : Sched} {killed : Finset ℕ}

theorem Inv.current_live (h : Inv s killed) : s.isDead s.current = false := by
  have hrun := (h.running s.current).mpr rfl
  simp [Sched.isDead, hrun]

theorem inv_start {pmm : State} (hpmm : WellCounted pmm) : Inv (taskInit pmm) ∅ where
  counted := hpmm
  count_le := (by decide : 1 ≤ maxTasks)
  current_lt := one_pos
  running i := by
    change (if i = 0 then Status.running else Status.dead) = _ ↔ i = 0
    split_ifs with hi <;> simp [hi]
  unused i hi := by
    have hne : i ≠ 0 := one_le_iff_ne_zero.mp hi
    exact if_neg hne
  killed i hi := absurd hi (notMem_empty i)
  stack i _ hne := absurd rfl hne
  distinct i j _ _ _ hne := absurd rfl hne

theorem Inv.start_lt (h : Inv s killed) : (s.current + 1) % s.taskCount < s.taskCount :=
  mod_lt _ (zero_lt_of_lt h.current_lt)

theorem Inv.nextId (h : Inv s killed) : s.nextId < s.taskCount ∧ s.isDead s.nextId = false :=
  ⟨search_lt h.start_lt _, search_found h.start_lt h.current_lt h.current_live⟩

theorem Inv.nextId_ne (h : Inv s killed) {i : ℕ} (hi : i < s.taskCount) (hne : i ≠ s.current)
    (hlive : s.Live i) : s.nextId ≠ s.current := by
  have hdead : s.isDead i = false := by
    rw [Sched.isDead, decide_eq_false_iff_not]
    exact hlive
  exact search_last h.start_lt h.current_lt rfl hi hdead hne

@[simp] theorem setState_state (s : Sched) (i j : ℕ) (state : Status) :
    ((s.setState i state).tasks j).state = if j = i then state else (s.tasks j).state := by
  unfold Sched.setState
  by_cases hji : j = i
  · subst hji
    simp
  · simp [hji]

@[simp] theorem setState_stackBase (s : Sched) (i j : ℕ) (state : Status) :
    ((s.setState i state).tasks j).stackBase = (s.tasks j).stackBase := by
  unfold Sched.setState
  by_cases hji : j = i
  · subst hji
    simp
  · simp [hji]

@[simp] theorem setState_current (s : Sched) (i : ℕ) (state : Status) :
    (s.setState i state).current = s.current := rfl

@[simp] theorem setState_taskCount (s : Sched) (i : ℕ) (state : Status) :
    (s.setState i state).taskCount = s.taskCount := rfl

theorem inv_taskSwitch (h : Inv s killed) : Inv (taskSwitch s) killed := by
  unfold taskSwitch
  split_ifs with hcount hdead
  · exact h
  · exact h
  · obtain ⟨hlt, hlive⟩ := h.nextId
    have hcur : (s.tasks s.current).state = .running := (h.running _).mpr rfl
    have hnext : (s.tasks s.nextId).state ≠ .dead := by
      simpa [Sched.isDead] using hlive
    have hsame : ∀ i, (({ s with current := s.nextId }.setState s.current .ready).setState s.nextId
        .running).Live i → s.Live i := by
      intro i hi
      unfold Sched.Live at hi ⊢
      simp only [setState_state] at hi
      split_ifs at hi with hin hic
      · rwa [hin]
      · rw [hic, hcur]
        decide
      · exact hi
    refine ⟨h.counted, h.count_le, hlt, fun i => ?_, fun i hi => ?_, fun i hi => ?_,
      fun i hi hne => ?_, fun i j hi hj hij hne => ?_⟩
    · simp only [setState_state, setState_current]
      split_ifs with hin hic
      · simp [hin]
      · simp [hin]
      · rw [h.running]
        exact iff_of_false hic hin
    · simp only [setState_state, setState_taskCount] at hi ⊢
      rw [if_neg (by omega), if_neg (by have := h.current_lt; omega)]
      exact h.unused i hi
    · have hdead' := h.killed i hi
      have hin : i ≠ s.nextId := fun heq => hnext (heq ▸ hdead')
      have hic : i ≠ s.current := by
        rintro rfl
        rw [hcur] at hdead'
        cases hdead'
      simp only [setState_state]
      rw [if_neg hin, if_neg hic]
      exact hdead'
    · simp only [setState_stackBase] at hne ⊢
      exact h.stack i (hsame i hi) hne
    · simp only [setState_stackBase] at hne ⊢
      exact h.distinct i j (hsame i hi) (hsame j hj) hij hne

/-- No live task stands on the page that is taken next. -/
theorem Inv.stackBase_ne_alloc (h : Inv s killed) (hzero : (allocBlock s.pmm).2 ≠ 0) {i : ℕ}
    (hi : s.Live i) : (s.tasks i).stackBase ≠ (allocBlock s.pmm).2 := by
  intro heq
  obtain ⟨b, -, hbase, hfresh, -⟩ := (allocBlock_table h.counted).2.2.2 hzero
  obtain ⟨c, -, hc, hcuse⟩ := h.stack i hi (by rw [heq]; exact hzero)
  have hcb : c = b := eq_of_mul_eq_mul_right (by decide : 0 < pageSize)
    (hc.symm.trans (heq.trans hbase))
  exact hfresh (hcb ▸ hcuse)

theorem inv_fill (h : Inv s killed) {slot : ℕ} (hslot : slot < s.taskCount)
    (hdead : (s.tasks slot).state = .dead) :
    Inv (s.fill slot) (if (allocBlock s.pmm).2 = 0 then killed else killed.erase slot) := by
  obtain ⟨hcounted, hmono, -, hnew⟩ := allocBlock_table h.counted
  have hstack : ∀ i, s.Live i → (s.tasks i).stackBase ≠ 0 →
      ∃ b < 2 ^ 20, (s.tasks i).stackBase = b * pageSize ∧ InUse (allocBlock s.pmm).1 b := by
    intro i hi hne
    obtain ⟨b, hb, hbase, huse⟩ := h.stack i hi hne
    exact ⟨b, hb, hbase, hmono b huse⟩
  unfold Sched.fill
  dsimp only
  split_ifs with hzero
  · exact ⟨hcounted, h.count_le, h.current_lt, h.running, h.unused, h.killed, hstack, h.distinct⟩
  · obtain ⟨b, hb, hbase, -, huse⟩ := hnew hzero
    have hcur : slot ≠ s.current := by
      rintro rfl
      rw [(h.running _).mpr rfl] at hdead
      cases hdead
    have hlive : ∀ i, i ≠ slot → ∀ t, (update s.tasks slot t i).state ≠ .dead →
        s.Live i := by
      intro i hi t hlive
      rwa [update_of_ne hi] at hlive
    refine ⟨hcounted, h.count_le, h.current_lt, fun i => ?_, fun i hi => ?_, fun i hi => ?_,
      fun i hi hne => ?_, fun i j hi hj hij hne => ?_⟩
    · by_cases his : i = slot
      · subst his
        simp [hcur]
      · simpa [his] using h.running i
    · have his : i ≠ slot := by
        rintro rfl
        exact absurd hi (not_le.mpr hslot)
      simpa [his] using h.unused i hi
    · obtain ⟨his, hi⟩ := mem_erase.mp hi
      simpa [his] using h.killed i hi
    · by_cases his : i = slot
      · subst his
        simp only [update_self] at hne ⊢
        exact ⟨b, hb, hbase, huse⟩
      · simp only [update_of_ne his] at hne ⊢
        exact hstack i (hlive i his _ hi) hne
    · by_cases his : i = slot
      · subst his
        have hjs : j ≠ i := hij.symm
        simp only [update_self, update_of_ne hjs]
        exact (h.stackBase_ne_alloc hzero (hlive j hjs _ hj)).symm
      · by_cases hjs : j = slot
        · subst hjs
          simp only [update_self, update_of_ne his]
          exact h.stackBase_ne_alloc hzero (hlive i his _ hi)
        · simp only [update_of_ne his, update_of_ne hjs] at hne ⊢
          exact h.distinct i j (hlive i his _ hi) (hlive j hjs _ hj) hij hne

@[simp] theorem dropStack_state (s : Sched) (i j : ℕ) :
    ((s.dropStack i).tasks j).state = (s.tasks j).state := by
  unfold Sched.dropStack
  split_ifs
  · by_cases hji : j = i
    · subst hji
      simp
    · simp [hji]
  · rfl

@[simp] theorem dropStack_stackBase (s : Sched) (i j : ℕ) :
    ((s.dropStack i).tasks j).stackBase = if j = i then 0 else (s.tasks j).stackBase := by
  unfold Sched.dropStack
  by_cases hji : j = i
  · subst hji
    rw [if_pos rfl]
    split_ifs with hbase
    · simp
    · exact not_not.mp hbase
  · rw [if_neg hji]
    split_ifs
    · simp [hji]
    · rfl

@[simp] theorem dropStack_current (s : Sched) (i : ℕ) : (s.dropStack i).current = s.current := by
  unfold Sched.dropStack
  split_ifs <;> rfl

@[simp] theorem dropStack_taskCount (s : Sched) (i : ℕ) :
    (s.dropStack i).taskCount = s.taskCount := by
  unfold Sched.dropStack
  split_ifs <;> rfl

theorem dropStack_pmm (h : WellCounted s.pmm) (i : ℕ) :
    WellCounted (s.dropStack i).pmm ∧ ∀ b < 2 ^ 20, InUse s.pmm b →
      b * pageSize ≠ (s.tasks i).stackBase → (s.tasks i).stackBase % pageSize = 0 →
      (s.tasks i).stackBase < 2 ^ 32 → InUse (s.dropStack i).pmm b := by
  unfold Sched.dropStack
  split_ifs with hbase
  · refine ⟨wellCounted_unsetBlock h _, fun b _ huse hne halign hlt => inUse_freeBlock huse ?_⟩
    rw [BitVec.toNat_ofNat, Nat.mod_eq_of_lt hlt]
    rintro rfl
    rw [Nat.div_mul_cancel (Nat.dvd_of_mod_eq_zero halign)] at hne
    exact hne rfl
  · exact ⟨h, fun _ _ huse _ _ _ => huse⟩

/-- The stack of a dead task can go when no living task has it. -/
theorem Inv.dropStack (h : Inv s killed) {i : ℕ} (hdead : ¬ s.Live i)
    (hbase : ∃ c < 2 ^ 20, (s.tasks i).stackBase = c * pageSize)
    (hother : ∀ j, s.Live j → (s.tasks j).stackBase ≠ 0 →
      (s.tasks j).stackBase ≠ (s.tasks i).stackBase) : Inv (s.dropStack i) killed := by
  obtain ⟨c, hc, hbase⟩ := hbase
  obtain ⟨hcounted, hkeep⟩ := dropStack_pmm h.counted i
  have hold : ∀ j, (s.dropStack i).Live j → j ≠ i ∧ s.Live j := by
    intro j hj
    rw [Sched.Live, dropStack_state] at hj
    exact ⟨fun hji => hdead (hji ▸ hj), hj⟩
  refine ⟨hcounted, by simpa using h.count_le, by simpa using h.current_lt, by simpa using h.running,
    by simpa using h.unused, by simpa using h.killed, fun j hj hz => ?_, fun j k hj hk hjk hz => ?_⟩
  · obtain ⟨hji, hj⟩ := hold j hj
    rw [dropStack_stackBase, if_neg hji] at hz ⊢
    obtain ⟨b, hb, hbj, huse⟩ := h.stack j hj hz
    refine ⟨b, hb, hbj, hkeep b hb huse ?_ ?_ ?_⟩
    · rw [← hbj]
      exact hother j hj hz
    · rw [hbase, mul_mod_left]
    · rw [hbase]
      unfold pageSize
      omega
  · obtain ⟨hji, hj⟩ := hold j hj
    obtain ⟨hki, hk⟩ := hold k hk
    rw [dropStack_stackBase, if_neg hji] at hz ⊢
    rw [dropStack_stackBase, if_neg hki]
    exact h.distinct j k hj hk hjk hz

/-- The current task dies and its successor runs. -/
def Sched.succeed (s : Sched) : Sched :=
  ({ s with current := s.nextId }.setState s.current .dead).setState s.nextId .running

theorem succeed_state (s : Sched) (i : ℕ) : (s.succeed.tasks i).state =
    if i = s.nextId then .running else if i = s.current then .dead else (s.tasks i).state := by
  simp only [Sched.succeed, setState_state]

theorem succeed_stackBase (s : Sched) (i : ℕ) :
    (s.succeed.tasks i).stackBase = (s.tasks i).stackBase := by
  simp [Sched.succeed]

theorem Inv.live_of_succeed (h : Inv s killed) (hne : s.nextId ≠ s.current) {i : ℕ}
    (hi : s.succeed.Live i) : i ≠ s.current ∧ s.Live i := by
  rw [Sched.Live, succeed_state] at hi
  split_ifs at hi with hin hic
  · rw [hin]
    exact ⟨hne, by simpa [Sched.isDead, Sched.Live] using h.nextId.2⟩
  · exact absurd rfl hi
  · exact ⟨hic, hi⟩

theorem Inv.succeed (h : Inv s killed) (hne : s.nextId ≠ s.current) :
    Inv s.succeed (insert s.current killed) := by
  obtain ⟨hlt, hlive⟩ := h.nextId
  refine ⟨h.counted, h.count_le, hlt, fun i => ?_, fun i hi => ?_, fun i hi => ?_, fun i hi hz => ?_,
    fun i j hi hj hij hz => ?_⟩
  · change _ ↔ i = s.nextId
    rw [succeed_state]
    split_ifs with hin hic
    · simp [hin]
    · simp [hin]
    · rw [h.running]
      exact iff_of_false hic hin
  · have hunused : s.taskCount ≤ i := hi
    rw [succeed_state, if_neg (by omega)]
    split_ifs
    · rfl
    · exact h.unused i hunused
  · rw [succeed_state]
    rcases mem_insert.mp hi with rfl | hi
    · rw [if_neg hne.symm, if_pos rfl]
    · have hdead := h.killed i hi
      have hin : i ≠ s.nextId := by
        rintro rfl
        simp [Sched.isDead, hdead] at hlive
      rw [if_neg hin, hdead, ite_self]
  · rw [succeed_stackBase] at hz ⊢
    exact h.stack i (h.live_of_succeed hne hi).2 hz
  · rw [succeed_stackBase] at hz ⊢
    rw [succeed_stackBase]
    exact h.distinct i j (h.live_of_succeed hne hi).2 (h.live_of_succeed hne hj).2 hij hz

theorem inv_taskKillCurrent (h : Inv s killed) (hcount : ¬ s.taskCount ≤ 1)
    (hne : s.nextId ≠ s.current) : Inv (taskKillCurrent s) (insert s.current killed) := by
  have hlive : s.Live s.current := by simpa [Sched.isDead, Sched.Live] using h.current_live
  have hkill : taskKillCurrent s = s.succeed.dropStack s.current := by
    unfold taskKillCurrent
    rw [if_neg hcount, if_neg (by rw [h.nextId.2]; decide)]
    rfl
  rw [hkill]
  refine (h.succeed hne).dropStack (fun hi => (h.live_of_succeed hne hi).1 rfl) ?_ fun j hj hz => ?_
  · rw [succeed_stackBase]
    by_cases hzero : (s.tasks s.current).stackBase = 0
    · exact ⟨0, by norm_num, by rw [hzero, zero_mul]⟩
    · obtain ⟨c, hc, hbase, -⟩ := h.stack s.current hlive hzero
      exact ⟨c, hc, hbase⟩
  · obtain ⟨hjc, hj⟩ := h.live_of_succeed hne hj
    rw [succeed_stackBase] at hz ⊢
    rw [succeed_stackBase]
    exact h.distinct j s.current hj hlive hjc hz

theorem inv_taskCreate (h : Inv s killed) :
    Inv (taskCreate s) (s.created.elim killed killed.erase) := by
  unfold taskCreate Sched.created
  cases hslot : s.deadSlot with
  | some slot =>
    have hmem := List.mem_of_find?_eq_some hslot
    have hdead : (s.tasks slot).state = .dead := by
      simpa [Sched.isDead] using List.find?_some hslot
    have hlt : slot < s.taskCount := by
      have hrange := List.mem_range'_1.mp hmem
      omega
    have hfill := inv_fill h hlt hdead
    split_ifs at hfill ⊢ <;> exact hfill
  | none =>
    by_cases hfull : s.taskCount ≥ maxTasks
    · rw [if_pos hfull, if_pos hfull]
      split_ifs <;> exact h
    · rw [if_neg hfull, if_neg hfull]
      have hgrown : Inv { s with taskCount := s.taskCount + 1 } killed :=
        ⟨h.counted, Nat.lt_of_not_le hfull, h.current_lt.trans (Nat.lt_succ_self _), h.running,
          fun i hi => h.unused i (Nat.le_of_succ_le hi), h.killed, h.stack, h.distinct⟩
      have hfill := inv_fill hgrown (Nat.lt_succ_self _) (h.unused _ le_rfl)
      split_ifs at hfill ⊢ <;> exact hfill

inductive Op
  | create
  | switch
  | kill
deriving DecidableEq

/-- The scheduler, and the slots whose task has been killed and that have not been filled again. -/
structure Run where
  sched : Sched
  killed : Finset ℕ

/-- A halted machine stays as it is. -/
def step (r : Run) (op : Op) : Run :=
  if r.sched.halted then r
  else
    match op with
    | .create => ⟨taskCreate r.sched, r.sched.created.elim r.killed r.killed.erase⟩
    | .switch => ⟨taskSwitch r.sched, r.killed⟩
    | .kill => ⟨taskKillCurrent r.sched, insert r.sched.current r.killed⟩

def start (pmm : State) : Run := ⟨taskInit pmm, ∅⟩

/-- One task is running, the current one, which has not been killed; the stack pages of the live
tasks are different and in use. -/
structure Good (r : Run) : Prop where
  running : ∀ i, (r.sched.tasks i).state = .running ↔ i = r.sched.current
  alive : r.sched.current ∉ r.killed
  distinct : ∀ i j, r.sched.Live i → r.sched.Live j → i ≠ j → (r.sched.tasks i).stackBase ≠ 0 →
    (r.sched.tasks i).stackBase ≠ (r.sched.tasks j).stackBase
  inUse : ∀ i, r.sched.Live i → (r.sched.tasks i).stackBase ≠ 0 →
    InUse r.sched.pmm ((r.sched.tasks i).stackBase / pageSize)

/-- A kill leaves a live task behind, or there never was another one. -/
def NotLast (r : Run) (op : Op) : Prop :=
  op = .kill → r.sched.halted = true ∨ r.sched.taskCount ≤ 1 ∨
    ∃ i < r.sched.taskCount, i ≠ r.sched.current ∧ r.sched.Live i

instance (r : Run) (op : Op) : Decidable (NotLast r op) := inferInstanceAs (Decidable (_ → _))

theorem Inv.good {r : Run} (h : Inv r.sched r.killed) : Good r where
  running := h.running
  alive hmem := by
    have hdead := h.killed _ hmem
    rw [(h.running _).mpr rfl] at hdead
    cases hdead
  distinct := h.distinct
  inUse i hlive hne := by
    obtain ⟨b, -, hb, huse⟩ := h.stack i hlive hne
    rwa [hb, Nat.mul_div_cancel _ (by decide : 0 < pageSize)]

def Safe (r : Run) : Prop := r.sched.halted = false → Inv r.sched r.killed

theorem safe_step {r : Run} {op : Op} (h : Safe r) (hok : NotLast r op) : Safe (step r op) := by
  intro hrunning
  unfold step at hrunning ⊢
  by_cases hhalt : r.sched.halted = true
  · rw [if_pos hhalt] at hrunning ⊢
    exact h hrunning
  · rw [if_neg hhalt] at hrunning ⊢
    have hinv := h (Bool.not_eq_true _ ▸ hhalt)
    cases op with
    | create => exact inv_taskCreate hinv
    | switch => exact inv_taskSwitch hinv
    | kill =>
      by_cases hcount : r.sched.taskCount ≤ 1
      · unfold taskKillCurrent at hrunning
        rw [if_pos hcount] at hrunning
        cases hrunning
      · rcases hok rfl with hhalt' | hone | ⟨i, hi, hne, hlive⟩
        · exact absurd hhalt' hhalt
        · exact absurd hone hcount
        · exact inv_taskKillCurrent hinv hcount (hinv.nextId_ne hi hne hlive)

/-- The last live task finds itself, and stays current after it has been killed. -/
theorem kill_last {r : Run} (h : Inv r.sched r.killed) (hlast : ¬ NotLast r .kill) :
    (step r .kill).sched.halted = false ∧ (step r .kill).sched.current ∈ (step r .kill).killed := by
  unfold NotLast at hlast
  push Not at hlast
  obtain ⟨-, hhalt, hcount, hdead⟩ := hlast
  obtain ⟨hlt, hlive⟩ := h.nextId
  have hself : r.sched.nextId = r.sched.current := by
    by_contra hne
    apply hdead _ hlt hne
    simpa [Sched.isDead, Sched.Live] using hlive
  unfold step
  rw [if_neg hhalt]
  unfold taskKillCurrent
  rw [if_neg (not_le.mpr hcount), if_neg (by rw [hlive]; decide)]
  constructor
  · unfold Sched.dropStack
    split_ifs <;> exact Bool.not_eq_true _ ▸ hhalt
  · rw [dropStack_current, setState_current, setState_current]
    exact hself ▸ mem_insert_self _ _

/-- The machine keeps its promises in all states of a run exactly when no kill of the run hits the
last live task. -/
theorem scheduler_good_iff {pmm : State} (hpmm : WellCounted pmm) (ops : List Op) :
    (∀ n, (Runs.run step (start pmm) (ops.take n)).sched.halted = false →
        Good (Runs.run step (start pmm) (ops.take n))) ↔
      Runs.Admissible step NotLast (start pmm) ops := by
  have hstart : Safe (start pmm) := fun _ => inv_start hpmm
  generalize start pmm = r at hstart ⊢
  constructor
  · intro hgood
    induction ops generalizing r with
    | nil => trivial
    | cons op ops ih =>
      have hok : NotLast r op := by
        by_contra hlast
        obtain rfl : op = .kill := by
          by_contra hop
          exact hlast fun heq => absurd heq hop
        have hhalt : r.sched.halted = false := by
          by_contra hhalt
          exact hlast fun _ => .inl (Bool.not_eq_false _ ▸ hhalt)
        obtain ⟨hrunning, hmem⟩ := kill_last (hstart hhalt) hlast
        exact (hgood 1 hrunning).alive hmem
      exact ⟨hok, ih (step r op) (safe_step hstart hok) fun n => hgood (n + 1)⟩
  · intro hok n hrunning
    have hprefix : Runs.Admissible step NotLast r (ops.take n) := by
      have hall := (Runs.admissible_append r (ops.take n) (ops.drop n)).mp
        (by rwa [List.take_append_drop])
      exact hall.1
    exact (Runs.run_invariant (fun _ _ hs hi => safe_step hs hi) r _ hstart hprefix hrunning).good

/-- The boot task is killed while a second task lives. -/
theorem scheduler_good_two :
    let r := Runs.run step (start smallPmm) [.create, .switch, .create, .kill]
    r.sched.halted = false ∧ Good r := by
  have hhalted : (Runs.run step (start smallPmm)
      ([.create, .switch, .create, .kill].take 4)).sched.halted = false := by decide +kernel
  exact ⟨hhalted, (scheduler_good_iff wellCounted_smallPmm _).mpr (by decide +kernel) 4 hhalted⟩

/-- When the only other task has killed itself too, it is still the current one, and its stack page
is free. -/
theorem killed_task_stays_current :
    let r := Runs.run step (start smallPmm) [.create, .kill, .kill]
    r.sched.halted = false ∧ r.sched.current = 1 ∧ ¬ Good r ∧ r.sched.pmm.isSet 1 = false := by
  intro r
  have hmem : r.sched.current ∈ r.killed := by decide +kernel
  exact ⟨by decide +kernel, by decide +kernel, fun h => h.alive hmem, by decide +kernel⟩

end MicroK.Tasks
