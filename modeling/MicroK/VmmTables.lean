import MicroK.PmmRuns
import MicroK.TableTree

/-!
# The two page table formats

The legacy format has one directory of 1024 entries over tables of 1024 entries, the PAE format one
pointer table of 4 entries over directories and tables of 512 entries. A table is created on demand
from a page of the page allocator. `tables` is the contents of the frames that serve as tables, by
frame number and index; what invalidates the translation buffer is left out.
-/

namespace MicroK.Vmm

open Pmm TableTree Nat

/-- `root` is the frame of the directory or of the pointer table. -/
structure Paging where
  paeActive : Bool
  root : ℕ
  tables : ℕ → ℕ → ℕ
  pmm : State

def paePresent : ℕ := 0x001
def paeWritable : ℕ := 0x002
def paeUser : ℕ := 0x004

def paeAddrMask : ℕ := 0x000FFFFFFFFFF000

def paeMakeEntry (physicalAddr flags : ℕ) : ℕ := (physicalAddr &&& paeAddrMask) ||| flags

def paeEntryAddr (entry : ℕ) : ℕ := entry &&& paeAddrMask

variable (virtualAddr : ℕ)

def paePdptIndex : ℕ := virtualAddr >>> 30 &&& 0x3

def paePdIndex : ℕ := virtualAddr >>> 21 &&& 0x1FF

def paePtIndex : ℕ := virtualAddr >>> 12 &&& 0x1FF

def legacyPdIndex : ℕ := virtualAddr >>> 22

def legacyPtIndex : ℕ := virtualAddr >>> 12 &&& 0x3FF

variable (pae : Bool)

/-- The frame that an entry points to, as a 32-bit pointer where it is a table. -/
def entryFrame (entry : ℕ) : ℕ :=
  if pae then u32 (paeEntryAddr entry) / pageSize else (entry &&& 0xFFFFF000) / pageSize

variable (s : Paging)

/-- One level of a lookup: the table behind entry `i` of the table in frame `f`, created on demand
with the entry that `makeEntry` gives for its address. -/
def Paging.nextTable (f i : ℕ) (makeEntry : ℕ → ℕ) (create : Bool) :
    Paging × Option ℕ :=
  if s.tables f i &&& 1 = 0 then
    if !create then (s, none)
    else
      let block := allocBlock s.pmm
      if block.2 = 0 then ({ s with pmm := block.1 }, none)
      else
        let tables := setEntry (Function.update s.tables (block.2 / pageSize) fun _ => 0) f i
          (makeEntry block.2)
        ({ s with pmm := block.1, tables := tables }, some (entryFrame s.paeActive (tables f i)))
  else (s, some (entryFrame s.paeActive (s.tables f i)))

def Paging.legacyTable (virtualAddr : ℕ) (create : Bool) : Paging × Option ℕ :=
  s.nextTable s.root (legacyPdIndex virtualAddr) (fun addr => addr ||| 0x07) create

def Paging.paeGetTable (virtualAddr : ℕ) (create : Bool) : Paging × Option ℕ :=
  match s.nextTable s.root (paePdptIndex virtualAddr)
      (fun addr => paeMakeEntry addr paePresent) create with
  | (s, none) => (s, none)
  | (s, some pd) =>
    s.nextTable pd (paePdIndex virtualAddr)
      (fun addr => paeMakeEntry addr (paePresent ||| paeWritable ||| paeUser)) create

def Paging.setEntry (table i entry : ℕ) : Paging :=
  { s with tables := TableTree.setEntry s.tables table i entry }

variable (virtualAddr physicalAddr flags : ℕ)

def mapPageLegacy : Paging :=
  match s.legacyTable virtualAddr true with
  | (s, none) => s
  | (s, some table) => s.setEntry table (legacyPtIndex virtualAddr) (physicalAddr ||| flags)

def mapPagePae : Paging :=
  match s.paeGetTable virtualAddr true with
  | (s, none) => s
  | (s, some table) =>
    s.setEntry table (paePtIndex virtualAddr) (paeMakeEntry physicalAddr (flags &&& 0xFFF))

def mapPageExt : Paging :=
  if s.paeActive then mapPagePae s virtualAddr physicalAddr flags
  else mapPageLegacy s virtualAddr physicalAddr flags

variable (page flags : ℕ)

def protectPageLegacy : Option Paging :=
  match (s.legacyTable page false).2 with
  | none => none
  | some table =>
    let pte := s.tables table (legacyPtIndex page)
    if pte &&& 1 = 0 then none
    else some (s.setEntry table (legacyPtIndex page) ((pte &&& 0xFFFFF000) ||| (flags &&& 0xFFF)))

def protectPagePae : Option Paging :=
  match (s.paeGetTable page false).2 with
  | none => none
  | some table =>
    let pte := s.tables table (paePtIndex page)
    if pte &&& paePresent = 0 then none
    else some (s.setEntry table (paePtIndex page)
      (paeMakeEntry (paeEntryAddr pte) (flags &&& 0xFFF)))

def protectPage : Option Paging :=
  if s.paeActive then protectPagePae s page flags else protectPageLegacy s page flags

/-- The loop from page to page, with as much fuel as there are pages left. -/
def protectLoop (flags endPage : ℕ) : ℕ → Paging → ℕ → Paging × Bool
  | fuel, s, page =>
    match protectPage s page flags with
    | none => (s, false)
    | some s =>
      if page = endPage then (s, true)
      else
        match fuel with
        | 0 => (s, true)
        | fuel + 1 => protectLoop flags endPage fuel s (page + 0x1000)

def alignDownPage (value : ℕ) : ℕ := value &&& 0xFFFFF000

def protectRange (virtualAddr size flags : ℕ) : Paging × Bool :=
  if virtualAddr = 0 ∨ size = 0 then (s, false)
  else if u32 (virtualAddr + size) < virtualAddr then (s, false)
  else
    let page := alignDownPage virtualAddr
    let endPage := alignDownPage (virtualAddr + size - 1)
    protectLoop flags endPage ((endPage - page) / 0x1000) s page

variable (page : ℕ)

def userPageLegacy : Bool :=
  let pde := s.tables s.root (legacyPdIndex page)
  if pde &&& 0x01 = 0 then false
  else if pde &&& 0x04 = 0 then false
  else
    let pte := s.tables (entryFrame false pde) (legacyPtIndex page)
    if pte &&& 0x01 = 0 then false
    else if pte &&& 0x04 = 0 then false
    else true

def userPagePae : Bool :=
  match (s.paeGetTable page false).2 with
  | none => false
  | some table =>
    let pte := s.tables table (paePtIndex page)
    if pte &&& paePresent = 0 then false
    else if pte &&& paeUser = 0 then false
    else true

/-- `vmm_user_ptr_ok`, whose two versions differ in the check of one page only. -/
def userPtrOk (addr len : ℕ) : Bool :=
  if addr = 0 then false
  else
    let len := if len = 0 then 1 else len
    if u32 (addr + len) < addr then false
    else
      let startPage := alignDownPage addr
      let endPage := alignDownPage (addr + len - 1)
      let pageCount := (endPage - startPage) / 0x1000 + 1
      (List.range pageCount).all fun i =>
        if s.paeActive then userPagePae s (startPage + i * 0x1000)
        else userPageLegacy s (startPage + i * 0x1000)

/-- The first part of `vmm_init`: the root table. Without memory for it nothing is mapped. -/
def startPaging (cpuHasPae : Bool) (mem : ℕ → ℕ → ℕ) (pmm : State) : Option Paging :=
  let block := allocBlock pmm
  if cpuHasPae ∧ block.2 ≠ 0 then
    some ⟨true, block.2 / pageSize, Function.update mem (block.2 / pageSize) fun _ => 0, block.1⟩
  else
    let block := if cpuHasPae then allocBlock block.1 else block
    if block.2 = 0 then none
    else some ⟨false, block.2 / pageSize, Function.update mem (block.2 / pageSize) fun _ => 2,
      block.1⟩

def path : List ℕ :=
  if pae then [page / 2 ^ 18 % 4, page / 2 ^ 9 % 512] else [page / 2 ^ 10]

def index : ℕ := if pae then page % 512 else page % 1024

def depth : ℕ := if pae then 2 else 1

def next (entry : ℕ) : Option ℕ :=
  if entry &&& 1 = 0 then none else some (entryFrame pae entry)

@[simp] theorem path_length : (path pae page).length = depth pae := by
  cases pae <;> rfl

theorem path_index_inj {pae : Bool} {p q : ℕ} (hp : p < 2 ^ 20) (hq : q < 2 ^ 20) :
    (path pae q = path pae p ∧ index pae q = index pae p) ↔ q = p := by
  constructor
  · rintro ⟨hpath, hindex⟩
    cases pae
    · simp only [path, index, Bool.false_eq_true, if_false, List.cons.injEq] at hpath hindex
      omega
    · simp only [path, index, if_true, List.cons.injEq] at hpath hindex
      omega
  · rintro rfl
    exact ⟨rfl, rfl⟩

section

variable (va : ℕ)

theorem legacyPdIndex_eq : legacyPdIndex va = va / pageSize / 2 ^ 10 := by
  rw [legacyPdIndex, Nat.shiftRight_eq_div_pow, pageSize, Nat.div_div_eq_div_mul]
  norm_num

theorem legacyPtIndex_eq : legacyPtIndex va = va / pageSize % 1024 := by
  rw [legacyPtIndex, shiftRight_eq_div_pow, show 0x3FF = 2 ^ 10 - 1 from rfl,
    and_two_pow_sub_one_eq_mod]
  rfl

theorem paePdptIndex_eq : paePdptIndex va = va / pageSize / 2 ^ 18 % 4 := by
  rw [paePdptIndex, shiftRight_eq_div_pow, show 0x3 = 2 ^ 2 - 1 from rfl,
    Nat.and_two_pow_sub_one_eq_mod, pageSize, Nat.div_div_eq_div_mul]
  norm_num

theorem paePdIndex_eq : paePdIndex va = va / pageSize / 2 ^ 9 % 512 := by
  rw [paePdIndex, shiftRight_eq_div_pow, show 0x1FF = 2 ^ 9 - 1 from rfl,
    Nat.and_two_pow_sub_one_eq_mod, pageSize, Nat.div_div_eq_div_mul]
  norm_num

theorem paePtIndex_eq : paePtIndex va = va / pageSize % 512 := by
  rw [paePtIndex, shiftRight_eq_div_pow, show 0x1FF = 2 ^ 9 - 1 from rfl,
    and_two_pow_sub_one_eq_mod]
  rfl

end

theorem or_flags {a f : ℕ} (ha : a % pageSize = 0) (hf : f < pageSize) : a ||| f = a + f := by
  have hsplit : 2 ^ 12 * (a / pageSize) = a := by
    unfold pageSize at *
    omega
  have hor := two_pow_add_eq_or_of_lt (i := 12) hf (a / pageSize)
  rw [hsplit] at hor
  exact hor.symm

theorem and_addrMask {a : ℕ} (ha : a < 2 ^ 52) : a &&& paeAddrMask = a / pageSize * pageSize := by
  have hmask : paeAddrMask = 2 ^ 52 - 2 ^ 12 := by norm_num [paeAddrMask]
  rw [hmask, and_high_mask_width ha (by norm_num)]
  rfl

theorem paeMakeEntry_eq {a f : ℕ} (ha : a < 2 ^ 52) (halign : a % pageSize = 0)
    (hf : f < pageSize) : paeMakeEntry a f = a + f := by
  have hmask : a &&& paeAddrMask = a := by
    rw [and_addrMask ha]
    unfold pageSize at *
    omega
  rw [paeMakeEntry, hmask, or_flags halign hf]

theorem next_table {pae : Bool} {b f : ℕ} (hb : b < 2 ^ 20) (hf : f < pageSize)
    (hodd : f % 2 = 1) : next pae (b * pageSize + f) = some b := by
  have hpresent : ¬ (b * pageSize + f) &&& 1 = 0 := by
    rw [and_one_is_mod]
    unfold pageSize
    omega
  have hframe : (b * pageSize + f) / pageSize * pageSize = b * pageSize := by
    unfold pageSize at *
    omega
  rw [next, if_neg hpresent, entryFrame]
  cases pae
  · have hmask : (b * pageSize + f) &&& 0xFFFFF000 = b * pageSize := by
      refine (and_high_mask (k := 12) ?_ (by norm_num)).trans hframe
      unfold pageSize at *
      omega
    rw [if_neg Bool.false_ne_true, hmask, Nat.mul_div_cancel _ (by decide)]
  · have hmask : paeEntryAddr (b * pageSize + f) = b * pageSize := by
      refine (and_addrMask ?_).trans hframe
      unfold pageSize at *
      omega
    rw [if_pos rfl, hmask, u32_of_lt (by unfold pageSize; omega), Nat.mul_div_cancel _ (by decide)]

theorem and_four_eq_zero_iff (e : ℕ) : e &&& 4 = 0 ↔ e / 4 % 2 = 0 := by
  have hbit : e &&& 4 = (e.testBit 2).toNat * 4 := and_two_pow e 2
  have htest : e.testBit 2 = decide (e / 4 % 2 = 1) := testBit_eq_decide_div_mod_eq
  rw [hbit, htest]
  rcases mod_two_eq_zero_or_one (e / 4) with h | h <;> simp [h]

theorem next_zero : next pae 0 = none := if_pos (zero_and 1)

theorem path_legacy (va : ℕ) : path false (va / pageSize) = [legacyPdIndex va] := by
  rw [legacyPdIndex_eq]
  rfl

theorem path_pae (va : ℕ) : path true (va / pageSize) = [paePdptIndex va, paePdIndex va] := by
  rw [paePdptIndex_eq, paePdIndex_eq]
  rfl

theorem index_legacy (va : ℕ) : index false (va / pageSize) = legacyPtIndex va := by
  rw [legacyPtIndex_eq]
  rfl

theorem index_pae (va : ℕ) : index true (va / pageSize) = paePtIndex va := by
  rw [paePtIndex_eq]
  rfl

open TableTree

def reflagged (flags entry : ℕ) : ℕ :=
  if pae then paeMakeEntry (paeEntryAddr entry) (flags &&& 0xFFF)
  else (entry &&& 0xFFFFF000) ||| (flags &&& 0xFFF)

theorem reflagged_reflagged (flags entry : ℕ) :
    reflagged pae flags (reflagged pae flags entry) = reflagged pae flags entry := by
  have hkeep : ∀ mask e : ℕ, 0xFFF &&& mask = 0 →
      ((e &&& mask) ||| (flags &&& 0xFFF)) &&& mask = e &&& mask := by
    intro mask e hmask
    rw [Nat.and_or_distrib_right, Nat.and_assoc, Nat.and_self, Nat.and_assoc, hmask, Nat.and_zero,
      or_zero]
  cases pae with
  | false => exact congrArg (· ||| _) (hkeep 0xFFFFF000 entry (by decide))
  | true =>
    have haddr : paeEntryAddr entry &&& paeAddrMask = paeEntryAddr entry := by
      rw [paeEntryAddr, Nat.and_assoc, Nat.and_self]
    exact congrArg (paeMakeEntry · _) ((hkeep paeAddrMask _ (by decide)).trans haddr)

def Paging.reflag (flags t i : ℕ) : Paging :=
  s.setEntry t i (reflagged s.paeActive flags (s.tables t i))

variable (s : Paging) (page flags : ℕ)

theorem protectPage_cases : protectPage s page flags = none ∨
    ∃ t i, protectPage s page flags = some (s.reflag flags t i) := by
  unfold protectPage Paging.reflag
  cases s.paeActive with
  | false =>
    rw [if_neg Bool.false_ne_true, protectPageLegacy]
    cases (s.legacyTable page false).2 with
    | none => exact .inl rfl
    | some t => exact (ite_eq_or_eq _ _ _).imp_right fun h => ⟨t, _, h⟩
  | true =>
    rw [if_pos rfl, protectPagePae]
    cases (s.paeGetTable page false).2 with
    | none => exact .inl rfl
    | some t => exact (ite_eq_or_eq _ _ _).imp_right fun h => ⟨t, _, h⟩

variable {s page flags} {endPage fuel t i : ℕ}

theorem reflag_self :
    (s.reflag flags t i).tables t i = reflagged s.paeActive flags (s.tables t i) := setEntry_self _

theorem reflag_keeps (h : reflagged s.paeActive flags (s.tables t i) = s.tables t i) (t' i' : ℕ) :
    (s.reflag flags t' i').tables t i = s.tables t i := by
  by_cases ht : t = t'
  · subst ht
    by_cases hi : i = i'
    · subst hi
      exact reflag_self.trans h
    · exact setEntry_of_ne_index hi _
  · exact setEntry_of_ne_frame ht _

theorem protectLoop_cases (fuel : ℕ) (s : Paging) (page : ℕ) :
    (protectPage s page flags = none ∧ protectLoop flags endPage fuel s page = (s, false)) ∨
      ∃ t i, protectPage s page flags = some (s.reflag flags t i) ∧
        (protectLoop flags endPage fuel s page = (s.reflag flags t i, true) ∨
          ∃ left, fuel = left + 1 ∧ protectLoop flags endPage fuel s page =
            protectLoop flags endPage left (s.reflag flags t i) (page + 0x1000)) := by
  rcases protectPage_cases s page flags with hp | ⟨t, i, hp⟩
  · exact .inl ⟨hp, by rw [protectLoop, hp]⟩
  · refine .inr ⟨t, i, hp, ?_⟩
    rw [protectLoop, hp]
    by_cases hend : page = endPage
    · exact .inl (if_pos hend)
    · cases fuel with
      | zero => exact .inl (if_neg hend)
      | succ left => exact .inr ⟨left, rfl, if_neg hend⟩

theorem protectLoop_keeps (h : reflagged s.paeActive flags (s.tables t i) = s.tables t i) :
    (protectLoop flags endPage fuel s page).1.tables t i = s.tables t i := by
  induction fuel using Nat.strong_induction_on generalizing s page with
  | _ fuel ih =>
    obtain ⟨-, hloop⟩ | ⟨t', i', -, hloop | ⟨left, rfl, hloop⟩⟩ := protectLoop_cases fuel s page
    · rw [hloop]
    · rw [hloop]
      exact reflag_keeps h t' i'
    · have hset := reflag_keeps h t' i'
      rw [hloop, ih left (lt_succ_self left) (by rw [hset]; exact h), hset]

/-- The pages from `page` on have the flags, up to one that is not present. -/
inductive FlaggedUpTo (s : Paging) (flags : ℕ) : ℕ → Prop
  | hole {page : ℕ} : protectPage s page flags = none → FlaggedUpTo s flags page
  | flagged {page : ℕ} : protectPage s page flags = some s → FlaggedUpTo s flags (page + 0x1000) →
    FlaggedUpTo s flags page

theorem protectLoop_unchanged_iff (hfail : (protectLoop flags endPage fuel s page).2 = false) :
    (protectLoop flags endPage fuel s page).1.tables = s.tables ↔ FlaggedUpTo s flags page := by
  induction fuel using Nat.strong_induction_on generalizing page with
  | _ fuel ih =>
    obtain ⟨hp, hloop⟩ | ⟨t, i, hp, hloop | ⟨left, rfl, hloop⟩⟩ := protectLoop_cases fuel s page
    · rw [hloop]
      exact iff_of_true rfl (.hole hp)
    · rw [hloop] at hfail
      cases hfail
    rw [hloop] at hfail ⊢
    constructor
    · intro htables
      have hkept := @protectLoop_keeps (s.reflag flags t i) (page + 0x1000) flags endPage left t i
        (by rw [reflag_self]; exact reflagged_reflagged ..)
      rw [htables, reflag_self] at hkept
      have hset : s.reflag flags t i = s := by
        rw [Paging.reflag, ← hkept, Paging.setEntry, TableTree.setEntry, Function.update_eq_self,
          Function.update_eq_self]
      rw [hset] at hp hfail htables
      exact .flagged hp ((ih left (lt_succ_self left) hfail).mp htables)
    · intro h
      cases h with
      | hole hnone => cases hp.symm.trans hnone
      | flagged hsame hrest =>
        rw [Option.some.inj (hp.symm.trans hsame)] at hfail ⊢
        exact (ih left (lt_succ_self left) hfail).mpr hrest

/-- A protection that fails leaves the tables as they were if it is refused at once, or if the pages
in front of the first hole had the flags already, and in no other case. -/
theorem protectRange_unchanged_iff (s : Paging) (va size flags : ℕ) :
    ((protectRange s va size flags).2 = false →
        (protectRange s va size flags).1.tables = s.tables) ↔
      ((protectRange s va size flags).2 = false → va = 0 ∨ size = 0 ∨ u32 (va + size) < va ∨
        FlaggedUpTo s flags (alignDownPage va)) := by
  unfold protectRange
  split_ifs with hzero hwrap
  · exact iff_of_true (fun _ => rfl) fun _ => hzero.imp_right .inl
  · exact iff_of_true (fun _ => rfl) fun _ => .inr (.inr (.inl hwrap))
  · refine forall_congr' fun hfail => (protectLoop_unchanged_iff hfail).trans ?_
    rw [not_or] at hzero
    simp only [hzero.1, hzero.2, hwrap, false_or]

/-- The second page of two is not present. -/
def holed : Paging where
  paeActive := pae
  root := 0
  tables t i := if i = 0 then (t + 1) * 0x1000 + 3 else if i = 1 then 0x1003 else 0
  pmm := ⟨fun _ => 0, 0, 0⟩

theorem protectRange_half_done :
    let legacy := protectRange (holed false) 0x1000 0x2000 1
    let pae := protectRange (holed true) 0x1000 0x2000 1
    (legacy.2 = false ∧ (holed false).tables 1 1 = 0x1003 ∧ legacy.1.tables 1 1 = 0x1001) ∧
      pae.2 = false ∧ (holed true).tables 2 1 = 0x1003 ∧ pae.1.tables 2 1 = 0x1001 := by
  decide

end MicroK.Vmm
