import MicroK.VmmExposure
import MicroK.PmmFreePages

/-!
# The pages that become page tables

`vmm_init` asks for its tables in an order that the sizes and the format fix, and each table gets
the next free page. So the free pages before the call say which pages become tables and, when there
are too few of them, which pages cannot be mapped. User code reaches a table exactly if one of these
pages is among those that are opened and mapped.
-/

namespace MicroK.Vmm

open Pmm TableTree List Nat

/-- The tables below the root on the way to the entry of a page. -/
def levels (pae : Bool) (page : ℕ) : List (List ℕ) :=
  if pae then [[page / 2 ^ 18 % 4], path true page] else [path false page]

/-- The tables in the order in which they are first asked for. -/
def request (tables : List (List ℕ)) (p : List ℕ) : List (List ℕ) :=
  if p ∈ tables then tables else tables ++ [p]

def requests (pae : Bool) (tables : List (List ℕ)) (page : ℕ) : List (List ℕ) :=
  (levels pae page).foldl request tables

namespace InitInput

variable (x : InitInput)

/-- The free pages before the call. The address of page 0 counts as a failure. -/
def freePages : List ℕ := (Pmm.freePages x.pmm).filter fun b => b ≠ 0

/-- The format: a processor with PAE falls back to the legacy format when it is given page 0. -/
def pae : Bool := x.cpuHasPae && decide (0 ∉ Pmm.freePages x.pmm)

def calls : List (ℕ × ℕ) :=
  identityCalls x.mappedSize x.uStart x.uEnd x.bitmapSize ++ framebufferCalls x.mbi

def tables : List (List ℕ) :=
  x.calls.foldl (fun tables c => requests x.pae tables (c.1 / pageSize)) [[]]

/-- The tables, each with the free page that it gets. -/
def placed : List (List ℕ × ℕ) := x.tables.zip x.freePages

end InitInput

/-- The tables that were asked for lie in the free pages, in their order, and the other free pages
are left. -/
structure Planned (pae : Bool) (free : List ℕ) (tables : List (List ℕ)) (s : Paging) : Prop where
  inv : Inv s
  format : s.paeActive = pae
  short : ∀ p ∈ tables, p.length ≤ depth pae
  rest : freePages s.pmm = free.drop tables.length
  walk : ∀ {p f}, p.length ≤ depth pae → (s.walk p = some f ↔ (p, f) ∈ tables.zip free)

variable {pae : Bool} {free : List ℕ} {tables : List (List ℕ)} {s s' : Paging} {p : List ℕ}

theorem mem_request_iff {q : List ℕ} : q ∈ request tables p ↔ q ∈ tables ∨ q = p := by
  unfold request
  split_ifs with hp
  · exact ⟨.inl, fun h => h.elim id fun heq => heq ▸ hp⟩
  · simp

theorem mem_request : p ∈ request tables p := mem_request_iff.mpr (.inr rfl)

theorem length_request_le {n : ℕ} (h : ∀ q ∈ tables, q.length ≤ n) (hp : p.length ≤ n) :
    ∀ q ∈ request tables p, q.length ≤ n := by
  intro q hq
  rcases mem_request_iff.mp hq with hq | rfl
  · exact h q hq
  · exact hp

theorem request_extends (tables : List (List ℕ)) (p : List ℕ) :
    tables <+: request tables p ∧ (request tables p).length ≤ tables.length + 1 := by
  unfold request
  split_ifs
  · exact ⟨prefix_rfl, Nat.le_succ _⟩
  · exact ⟨prefix_append _ _, by rw [length_append, length_singleton]⟩

theorem requests_extends (pae : Bool) (tables : List (List ℕ)) (page : ℕ) :
    tables <+: requests pae tables page ∧ (requests pae tables page).length ≤ tables.length + 2 ∧
      path pae page ∈ requests pae tables page := by
  unfold requests levels
  cases pae
  · obtain ⟨hext, hlen⟩ := request_extends tables (path false page)
    exact ⟨hext, hlen.trans (Nat.le_succ _), mem_request⟩
  · obtain ⟨hext, hlen⟩ := request_extends tables [page / 2 ^ 18 % 4]
    obtain ⟨hext', hlen'⟩ := request_extends (request tables [page / 2 ^ 18 % 4]) (path true page)
    exact ⟨hext.trans hext', hlen'.trans (Nat.succ_le_succ hlen), mem_request⟩

theorem zip_append_of_le {α β : Type*} {l more : List α} {r : List β} (h : r.length ≤ l.length) :
    (l ++ more).zip r = l.zip r := by
  induction l generalizing r with
  | nil =>
    rw [length_eq_zero_iff.mp (Nat.le_zero.mp h), zip_nil_right, zip_nil_right]
  | cons a l ih =>
    cases r with
    | nil => rfl
    | cons b r =>
      rw [cons_append, zip_cons_cons, zip_cons_cons, ih (Nat.le_of_succ_le_succ h)]

theorem zip_concat {α β : Type*} {l : List α} {r : List β} {a : α} {b : β} {rest : List β}
    (h : r.drop l.length = b :: rest) : (l ++ [a]).zip r = l.zip r ++ [(a, b)] := by
  induction l generalizing r with
  | nil =>
    rw [length_nil, drop_zero] at h
    rw [h]
    rfl
  | cons c l ih =>
    cases r with
    | nil => cases h
    | cons d r =>
      rw [cons_append, zip_cons_cons, zip_cons_cons, cons_append, ih h]

namespace Planned

theorem request_of_full (h : Planned pae free tables s) (hfull : free.length ≤ tables.length)
    (hlen : p.length ≤ depth pae) : Planned pae free (request tables p) s := by
  obtain ⟨more, hmore⟩ := (request_extends tables p).1
  refine ⟨h.inv, h.format, length_request_le h.short hlen, ?_, fun hq => ?_⟩ <;> rw [← hmore]
  · rw [h.rest, drop_eq_nil_of_le hfull, drop_eq_nil_of_le (by rw [length_append]; omega)]
  · rw [zip_append_of_le hfull]
    exact h.walk hq

/-- A table that is not there although it was asked for shows that the pages are used up. -/
theorem full_of_absent (h : Planned pae free tables s) (hp : p ∈ tables)
    (hlen : p.length ≤ depth pae) (hw : s.walk p = none) : free.length ≤ tables.length := by
  by_contra hlt
  obtain ⟨k, hk, rfl⟩ := mem_iff_getElem.mp hp
  have hmem : (tables[k], free[k]) ∈ tables.zip free := by
    rw [mem_iff_getElem]
    exact ⟨k, by rw [length_zip]; omega, getElem_zip⟩
  rw [(h.walk hlen).mpr hmem] at hw
  cases hw

/-- The next free page becomes the table at a path that was not asked for before. -/
theorem link (h : Planned s.paeActive free tables s) {f i b e : ℕ} {rest : List ℕ}
    (hp : p.length < depth s.paeActive) (hw : s.walk p = some f)
    (habsent : next s.paeActive (s.tables f i) = none) (hentry : next s.paeActive e = some b)
    (hfresh : ¬ InUse s.pmm b) (hfree : free.drop tables.length = b :: rest)
    (hnew : p ++ [i] ∉ tables) (hinv : Inv (s.link f i b e)) :
    Planned s.paeActive free (tables ++ [p ++ [i]]) (s.link f i b e) := by
  have hlen : (p ++ [i]).length ≤ depth s.paeActive := by
    rw [length_append]
    exact hp
  have hshort := length_request_le h.short hlen
  rw [request, if_neg hnew] at hshort
  refine ⟨hinv, rfl, hshort, ?_, fun {q g} hq => ?_⟩
  · have hrest := h.rest
    rw [hfree] at hrest
    change freePages (allocBlock s.pmm).1 = _
    rw [allocBlock_of_free h.inv.counted.max_lt hrest, freePages_setBlock hrest, length_append,
      length_singleton, ← drop_drop, hfree]
    rfl
  · rw [link_walk h.inv hp hw habsent hfresh hentry hq, zip_concat hfree, mem_append,
      mem_singleton, Prod.mk.injEq]
    split_ifs with hqp
    · subst hqp
      constructor
      · intro hg
        exact .inr ⟨rfl, (Option.some.inj hg).symm⟩
      · rintro (hold | ⟨-, rfl⟩)
        · exact absurd (of_mem_zip hold).1 hnew
        · rfl
    · rw [h.walk hq]
      simp [hqp]

theorem nextTable (hzero : 0 ∉ free) (h : Planned pae free tables s) {f : ℕ}
    (hp : p.length < depth pae) (hw : s.walk p = some f) (i : ℕ) (makeEntry : ℕ → ℕ) (flags : ℕ)
    (hmake : ∀ b < 2 ^ 20, makeEntry (b * pageSize) = b * pageSize + flags)
    (hflags : flags < pageSize) (hodd : flags % 2 = 1) (huser : pae = false → flags / 4 % 2 = 1) :
    Planned pae free (request tables (p ++ [i])) (s.nextTable f i makeEntry true).1 ∧
      (s.nextTable f i makeEntry true).2 =
        (s.nextTable f i makeEntry true).1.walk (p ++ [i]) := by
  obtain rfl := h.format
  have hlen : (p ++ [i]).length ≤ depth s.paeActive := by
    rw [length_append]
    exact hp
  have hsnoc := walk_snoc_of hw i
  obtain ⟨t, hnext, heq⟩ | ⟨habsent, ⟨hfalse, -⟩ | ⟨-, ⟨hfail, heq⟩ |
      ⟨b, e, hfound, haddr, hfresh, hinuse, hentry, hbit, heq⟩⟩⟩ :=
    nextTable_cases h.inv f i makeEntry flags hmake hflags hodd huser true
  · rw [heq, hsnoc]
    have hmem : p ++ [i] ∈ tables := (of_mem_zip ((h.walk hlen).mp (hsnoc.trans hnext))).1
    rw [request, if_pos hmem]
    exact ⟨h, hnext.symm⟩
  · cases hfalse
  · have hrest := h.rest
    cases hfree : free.drop tables.length with
    | nil =>
      rw [hfree] at hrest
      rw [heq, allocBlock_of_full hrest]
      exact ⟨h.request_of_full (drop_eq_nil_iff.mp hfree) hlen, (hsnoc.trans habsent).symm⟩
    | cons b rest =>
      rw [hfree] at hrest
      rw [allocBlock_of_free h.inv.counted.max_lt hrest, Nat.mul_eq_zero] at hfail
      obtain rfl : b = 0 := hfail.resolve_right (by decide)
      exact absurd (mem_of_mem_drop (hfree ▸ mem_cons_self)) hzero
  · have hrest := h.rest
    cases hfree : free.drop tables.length with
    | nil =>
      rw [hfree] at hrest
      exact absurd (congrArg Prod.snd (allocBlock_of_full hrest)) hfound
    | cons b' rest =>
      rw [hfree] at hrest
      have halloc := allocBlock_of_free h.inv.counted.max_lt hrest
      obtain rfl : b = b' := Nat.eq_of_mul_eq_mul_right (by decide : 0 < pageSize)
        (haddr.symm.trans (congrArg Prod.snd halloc))
      have hnew : p ++ [i] ∉ tables := by
        intro hmem
        have hfull := h.full_of_absent hmem hlen (hsnoc.trans habsent)
        rw [drop_eq_nil_of_le hfull] at hfree
        cases hfree
      have hinv := link_inv h.inv hp hw habsent haddr hfresh hinuse hentry hbit
      rw [request, if_neg hnew, heq, link_walk h.inv hp hw habsent hfresh hentry hlen, if_pos rfl]
      exact ⟨h.link hp hw habsent hentry hfresh hfree hnew hinv, rfl⟩

theorem getTable (hzero : 0 ∉ free) (h : Planned pae free tables s) (va : ℕ) :
    Planned pae free (requests pae tables (va / pageSize)) (s.getTable va true).1 ∧
      (s.getTable va true).2 = (s.getTable va true).1.walk (path pae (va / pageSize)) := by
  have hformat := h.format
  unfold Paging.getTable requests levels
  rw [hformat]
  cases pae
  · rw [if_neg Bool.false_ne_true, if_neg Bool.false_ne_true, path_legacy]
    exact h.nextTable hzero (p := []) (by decide) rfl _ _ 0x07 (fun b _ => or_user_block b)
      (by decide) rfl (fun _ => rfl)
  · rw [if_pos rfl, if_pos rfl, path_pae, ← paePdptIndex_eq, Paging.paeGetTable]
    obtain ⟨hdir, hfound⟩ := h.nextTable hzero (p := []) (by decide) rfl (paePdptIndex va)
      (fun addr => paeMakeEntry addr paePresent) paePresent
      (fun b hb => paeMakeEntry_block hb (by decide)) (by decide) (by decide)
      (fun hlegacy => by cases hlegacy)
    generalize s.nextTable s.root (paePdptIndex va) (fun addr => paeMakeEntry addr paePresent)
      true = r at hdir hfound ⊢
    obtain ⟨s', found⟩ := r
    rw [foldl_cons, foldl_cons, foldl_nil]
    cases found with
    | none =>
      refine ⟨hdir.request_of_full (hdir.full_of_absent mem_request one_le_two hfound.symm)
        (Nat.le_refl 2), ?_⟩
      change none = s'.walk ([paePdptIndex va] ++ [paePdIndex va])
      rw [Paging.walk, walk_append]
      change _ = (s'.walk ([] ++ [paePdptIndex va])).bind _
      rw [← hfound]
      rfl
    | some pd =>
      exact hdir.nextTable hzero (p := [paePdptIndex va]) one_lt_two hfound.symm (paePdIndex va)
        (fun addr => paeMakeEntry addr (paePresent ||| paeWritable ||| paeUser))
        (paePresent ||| paeWritable ||| paeUser)
        (fun b hb => paeMakeEntry_block hb (by decide)) (by decide) (by decide)
        (fun hlegacy => by cases hlegacy)

end Planned

variable {c : ℕ × ℕ} {page : ℕ}

/-- The tables of a page were asked for, and if they are there the page is mapped. -/
structure Mapped (pae : Bool) (tables : List (List ℕ)) (s : Paging) (page : ℕ) : Prop where
  requested : path pae page ∈ tables
  present : s.walk (path pae page) ≠ none → PageMap.Present s.entry page

theorem planned_call (hzero : 0 ∉ free) (h : Planned pae free tables s) (hc : ValidCall c) :
    Planned pae free (requests pae tables (c.1 / pageSize)) (mapPageExt s c.1 c.1 c.2) ∧
      Mapped pae (requests pae tables (c.1 / pageSize)) (mapPageExt s c.1 c.1 c.2)
        (c.1 / pageSize) := by
  obtain ⟨hplan, hfound⟩ := h.getTable hzero c.1
  have hpage : c.1 / pageSize < 2 ^ 20 := by
    have hlt := hc.1
    unfold pageSize
    omega
  have hmem := (requests_extends pae tables (c.1 / pageSize)).2.2
  obtain rfl := h.format
  cases hget : s.getTable c.1 true with
  | mk s' found =>
    rw [hget] at hplan hfound
    cases found with
    | none =>
      rw [mapPageExt_none hget]
      exact ⟨hplan, hmem, fun hne => absurd hfound.symm hne⟩
    | some t =>
      have hw : s'.walk (path s'.paeActive (c.1 / pageSize)) = some t := by
        rw [hplan.format]
        exact hfound.symm
      obtain ⟨hinv, hentry⟩ := setEntry_spec hplan.inv hpage hw (leafEntry s.paeActive c.1 c.2)
      rw [hplan.format] at hinv hentry
      rw [mapPageExt_some hget]
      refine ⟨⟨hinv, hplan.format, hplan.short, hplan.rest, fun hq => ?_⟩, hmem, fun _ => ?_⟩
      · have hleaf := walk_setEntry_leaf (i := index s.paeActive (c.1 / pageSize)) hplan.inv.tree
          (path_length _ _) hw (leafEntry s.paeActive c.1 c.2) (hplan.format.symm ▸ hq)
        exact (Eq.congr_left hleaf).trans (hplan.walk hq)
      · unfold PageMap.Present
        rw [hentry _ hpage, if_pos rfl]
        exact (leafEntry_call _ hc).2.1

theorem mapped_call (h : Planned pae free tables s)
    (h' : Planned pae free (requests pae tables (c.1 / pageSize)) (mapPageExt s c.1 c.1 c.2))
    (hc : ValidCall c) (hpage : page < 2 ^ 20) (hne : page ≠ c.1 / pageSize)
    (hmapped : Mapped pae tables s page) :
    Mapped pae (requests pae tables (c.1 / pageSize)) (mapPageExt s c.1 c.1 c.2) page := by
  have hlen : (path pae page).length ≤ depth pae := (path_length _ _).le
  obtain ⟨more, hmore⟩ := (requests_extends pae tables (c.1 / pageSize)).1
  refine ⟨hmore ▸ mem_append_left more hmapped.requested, fun hwalk => ?_⟩
  have hentry := (mapCall_spec h.inv hc).2.2.1 page hpage hne
  unfold PageMap.Present
  rw [hentry]
  refine hmapped.present fun hnone => hwalk ?_
  have hfull := h.full_of_absent hmapped.requested hlen hnone
  cases hw : (mapPageExt s c.1 c.1 c.2).walk (path pae page) with
  | none => rfl
  | some f =>
    rw [h'.walk hlen, ← hmore, zip_append_of_le hfull, ← h.walk hlen, hnone] at hw
    cases hw

theorem planned_calls (hzero : 0 ∉ free) (h : Planned pae free tables s) (calls : List (ℕ × ℕ))
    (hcalls : ∀ c ∈ calls, ValidCall c) :
    Planned pae free
        (calls.foldl (fun tables c => requests pae tables (c.1 / pageSize)) tables)
        (mapCalls s calls) ∧
      ∀ c ∈ calls, Mapped pae
        (calls.foldl (fun tables c => requests pae tables (c.1 / pageSize)) tables)
        (mapCalls s calls) (c.1 / pageSize) := by
  induction calls using List.reverseRecOn with
  | nil => exact ⟨h, fun c hc => by cases hc⟩
  | append_singleton calls c ih =>
    obtain ⟨hplan, hmapped⟩ := ih fun d hd => hcalls d (mem_append_left _ hd)
    have hc := hcalls c (by simp)
    obtain ⟨hplan', hthis⟩ := planned_call hzero hplan hc
    rw [mapCalls_concat, foldl_append, foldl_cons, foldl_nil]
    refine ⟨hplan', fun d hd => ?_⟩
    by_cases hdc : d.1 / pageSize = c.1 / pageSize
    · rw [hdc]
      exact hthis
    · have hd' : d ∈ calls := (mem_append.mp hd).resolve_right fun hmem =>
        hdc (by rw [mem_singleton.mp hmem])
      refine mapped_call hplan hplan' hc ?_ hdc (hmapped d hd')
      have hlt := (hcalls d hd).1
      unfold pageSize
      omega

theorem startPaging_format {cpuHasPae : Bool} {mem : ℕ → ℕ → ℕ} {pmm : State}
    (hs : startPaging cpuHasPae mem pmm = some s) :
    s.paeActive = (cpuHasPae && decide ((allocBlock pmm).2 ≠ 0)) := by
  unfold startPaging at hs
  dsimp only at hs
  split_ifs at hs with hpae hlegacy hzero hzero
  · rw [← Option.some.inj hs]
    simp [hpae.1, hpae.2]
  · rw [← Option.some.inj hs]
    simpa using hpae
  · rw [← Option.some.inj hs]
    simpa using hpae

theorem ne_zero_of_freePages {pmm : State} {b : ℕ} {rest : List ℕ}
    (hfree : freePages pmm = b :: rest) : ∀ f ∈ rest, f ≠ 0 := by
  intro f hf
  have hsorted := freePages_sorted pmm
  rw [hfree, pairwise_cons] at hsorted
  exact Nat.ne_of_gt ((Nat.zero_le b).trans_lt (hsorted.1 f hf))

/-- The root is in the first free page that is not page 0. -/
theorem startPaging_free {x : InitInput} (hpmm : WellCounted x.pmm)
    (hs : startPaging x.cpuHasPae x.mem x.pmm = some s) :
    s.paeActive = x.pae ∧ x.freePages = s.root :: freePages s.pmm := by
  have hdiv : ∀ b : ℕ, b * pageSize / pageSize = b := fun b => Nat.mul_div_cancel b (by decide)
  have hformat := startPaging_format hs
  obtain ⟨pmm₁, e, hpmm₁, hfound, hpmm', hroot, -, -⟩ := startPaging_cases hs
  cases hfree : freePages x.pmm with
  | nil =>
    have hnone := allocBlock_of_full hfree
    rcases hpmm₁ with rfl | ⟨rfl, -⟩
    · exact absurd (congrArg Prod.snd hnone) hfound
    · rw [hnone] at hfound
      exact absurd (congrArg Prod.snd hnone) hfound
  | cons b rest =>
    have hrest := ne_zero_of_freePages hfree
    have halloc := allocBlock_of_free hpmm.max_lt hfree
    rw [InitInput.pae, InitInput.freePages, hfree]
    by_cases hb : b = 0
    · subst hb
      rw [Nat.zero_mul] at halloc
      have hsecond : pmm₁ = setBlock x.pmm 0 := by
        rcases hpmm₁ with rfl | ⟨rfl, -⟩
        · exact absurd (congrArg Prod.snd halloc) hfound
        · exact congrArg Prod.fst halloc
      have hfree₁ := freePages_setBlock hfree
      have hmax₁ : (setBlock x.pmm 0).maxBlocks < 2 ^ 20 := by
        rw [setBlock_maxBlocks]
        exact hpmm.max_lt
      rw [hsecond] at hfound hpmm' hroot
      rw [hformat, halloc]
      refine ⟨by simp, ?_⟩
      rw [filter_cons_of_neg (by simp),
        filter_eq_self.mpr fun f hf => by simpa using hrest f hf]
      cases hnext : rest with
      | nil => exact absurd (congrArg Prod.snd (allocBlock_of_full (hfree₁.trans hnext))) hfound
      | cons c left =>
        rw [hnext] at hfree₁
        rw [hroot, hpmm', allocBlock_of_free hmax₁ hfree₁, hdiv, freePages_setBlock hfree₁]
    · have hne : b * pageSize ≠ 0 := Nat.mul_ne_zero hb (by decide)
      obtain rfl : x.pmm = pmm₁ := by
        rcases hpmm₁ with rfl | ⟨-, hfailed⟩
        · rfl
        · rw [halloc] at hfailed
          exact absurd hfailed hne
      have hall : ∀ f ∈ b :: rest, f ≠ 0 := forall_mem_cons.mpr ⟨hb, hrest⟩
      have hnot : 0 ∉ b :: rest := fun h0 => hall 0 h0 rfl
      rw [hformat, halloc, decide_eq_true hne, decide_eq_true hnot]
      refine ⟨rfl, ?_⟩
      rw [filter_eq_self.mpr fun f hf => by simpa using hall f hf, hroot, hpmm', halloc, hdiv,
        freePages_setBlock hfree]

theorem planned_start {x : InitInput} (hpmm : WellCounted x.pmm)
    (hs : startPaging x.cpuHasPae x.mem x.pmm = some s) :
    Planned x.pae x.freePages [[]] s := by
  obtain ⟨hformat, hfree⟩ := startPaging_free hpmm hs
  obtain ⟨-, e, -, -, -, -, heven, hblank⟩ := startPaging_cases hs
  refine ⟨(refines_startPaging hpmm hs).inv, hformat, by simp, by rw [hfree]; rfl,
    fun {p f} _ => ?_⟩
  rw [hfree, zip_cons_cons, zip_nil_left, mem_singleton, Prod.mk.injEq]
  cases p with
  | nil =>
    change some s.root = some f ↔ _
    simp [eq_comm]
  | cons i is =>
    have habsent : next s.paeActive (s.tables s.root i) = none := by
      rw [hblank]
      exact if_pos heven
    rw [Paging.walk, TableTree.walk, habsent]
    simp

theorem Planned.isTable_iff (h : Planned pae free tables s) (f : ℕ) :
    s.IsTable f ↔ f ∈ (tables.zip free).map Prod.snd := by
  rw [Paging.IsTable, h.format]
  constructor
  · rintro ⟨p, hlen, hw⟩
    exact mem_map.mpr ⟨(p, f), (h.walk hlen).mp hw, rfl⟩
  · intro hf
    obtain ⟨⟨p, g⟩, hmem, rfl⟩ := mem_map.mp hf
    have hlen := h.short p (of_mem_zip hmem).1
    exact ⟨p, hlen, (h.walk hlen).mpr hmem⟩

theorem Planned.present_iff (h : Planned pae free tables s) (hmapped : Mapped pae tables s page) :
    PageMap.Present s.entry page ↔ path pae page ∈ (tables.zip free).map Prod.fst := by
  have hlen : (path pae page).length ≤ depth pae := (path_length _ _).le
  constructor
  · intro hpresent
    cases hw : s.walk (path pae page) with
    | none =>
      rw [← h.format] at hw
      unfold PageMap.Present at hpresent
      rw [entry_of_walk_none hw] at hpresent
      cases hpresent
    | some g => exact mem_map.mpr ⟨(_, g), (h.walk hlen).mp hw, rfl⟩
  · intro hpath
    obtain ⟨⟨p, g⟩, hmem, rfl⟩ := mem_map.mp hpath
    refine hmapped.present ?_
    rw [(h.walk hlen).mpr hmem]
    exact Option.some_ne_none g

theorem exists_call {x : InitInput} {f : ℕ} (huser : x.UserPage f) :
    ∃ c ∈ x.calls, c.1 / pageSize = f := by
  rcases huser with ⟨c, hc, hf⟩ | ⟨hsize, -⟩
  · exact ⟨c, mem_append_right _ hc, hf⟩
  · refine ⟨_, mem_append_left _ (mem_map.mpr ⟨f, ?_, rfl⟩), Nat.mul_div_cancel f (by decide)⟩
    rw [mem_range]
    unfold pageSize at hsize
    omega

/-- What the free pages before the call say about the tables and the mapped pages after it. -/
theorem vmmInit_placed {x : InitInput} (hpmm : WellCounted x.pmm) (h : vmmInit x = .paged s) :
    (∀ f, s.IsTable f ↔ f ∈ x.placed.map Prod.snd) ∧ ∀ f, x.UserPage f →
      (PageMap.Present s.entry f ↔ path x.pae f ∈ x.placed.map Prod.fst) := by
  obtain ⟨s₀, hs₀, hsize, hs⟩ := vmmInit_cases h
  have hzero : 0 ∉ x.freePages := by simp [InitInput.freePages]
  have hcalls : ∀ c ∈ x.calls, ValidCall c := by
    intro c hc
    rcases mem_append.mp hc with hc | hc
    · exact identityCalls_valid hsize hc
    · exact ⟨(framebufferCalls_spec hc).1, .inl (framebufferCalls_spec hc).2⟩
  obtain ⟨hplan, hmapped⟩ := planned_calls hzero (planned_start hpmm hs₀) x.calls hcalls
  obtain rfl : mapCalls s₀ x.calls = s := by
    rw [hs, InitInput.calls, mapCalls, foldl_append]
    rfl
  refine ⟨hplan.isTable_iff, fun f huser => ?_⟩
  obtain ⟨c, hc, rfl⟩ := exists_call huser
  exact hplan.present_iff (hmapped c hc)

/-- The tables are out of reach of user code exactly when no free page that becomes a table is among
those that `vmm_init` opens, except for pages whose own table finds no page any more. -/
theorem tables_hidden_iff {x : InitInput} (hpmm : WellCounted x.pmm) {s : Paging}
    (h : vmmInit x = .paged s) :
    TablesHidden s ↔ ∀ f ∈ x.placed.map Prod.snd, x.UserPage f →
      path x.pae f ∉ x.placed.map Prod.fst := by
  obtain ⟨hinv, hself⟩ := vmmInit_spec hpmm h
  obtain ⟨htables, hmapped⟩ := vmmInit_placed hpmm h
  constructor
  · intro hhidden f hf huser hmem
    have htable := (htables f).mpr hf
    have hpresent := (hmapped f huser).mpr hmem
    obtain ⟨p, hlen, hw⟩ := htable
    have hlt : f < 2 ^ 20 := (hinv.tree.used hlen hw).1.trans hinv.counted.max_lt
    obtain ⟨hphys, hiff⟩ := hself f hlt hpresent
    exact hhidden f ⟨p, hlen, hw⟩ ⟨f, hlt, hpresent, hiff.mpr huser, hphys⟩
  · rintro hclear f htable ⟨page, hpage, hpresent, huser, hphys⟩
    obtain ⟨hsame, hiff⟩ := hself page hpage hpresent
    obtain rfl : page = f := hsame.symm.trans hphys
    exact hclear page ((htables page).mp htable) (hiff.mp huser)
      ((hmapped page (hiff.mp huser)).mp hpresent)

def smallInput : InitInput := ⟨true, 0x20000#32, 0x0#32, 0x1000#32, none, fun _ _ => 0, smallPmm⟩

theorem tables_hidden_small : ∃ s, vmmInit smallInput = .paged s ∧ TablesHidden s := by
  obtain ⟨s, hs⟩ : ∃ s, vmmInit smallInput = .paged s := ⟨_, rfl⟩
  refine ⟨s, hs, (tables_hidden_iff wellCounted_smallPmm hs).mpr ?_⟩
  rintro f hf (⟨c, hc, -⟩ | ⟨hsize, hrange⟩) -
  · cases hc
  · have hmapped : smallInput.mappedSize = 0x1000000 := rfl
    have hend : smallInput.uEnd = 0x1000 := by decide
    have hpos : f ≠ 0 := by
      rintro rfl
      obtain ⟨⟨p, _⟩, hmem, rfl⟩ := mem_map.mp hf
      have hfree := (of_mem_zip hmem).2
      simp [InitInput.freePages] at hfree
    unfold pageSize at hsize hrange
    omega

theorem length_foldl_requests (pae : Bool) (calls : List (ℕ × ℕ)) (tables : List (List ℕ)) :
    tables <+: calls.foldl (fun tables c => requests pae tables (c.1 / pageSize)) tables ∧
      (calls.foldl (fun tables c => requests pae tables (c.1 / pageSize)) tables).length ≤
        tables.length + 2 * calls.length := by
  induction calls generalizing tables with
  | nil => exact ⟨prefix_rfl, Nat.le_refl _⟩
  | cons c calls ih =>
    obtain ⟨hext, hlen, -⟩ := requests_extends pae tables (c.1 / pageSize)
    obtain ⟨hext', hlen'⟩ := ih (requests pae tables (c.1 / pageSize))
    rw [foldl_cons, length_cons]
    exact ⟨hext.trans hext', by omega⟩

/-- With two free pages for every call up to that of a page, its tables are there. -/
theorem path_mem_placed {x : InitInput} {k : ℕ} (hk : k < x.calls.length)
    (hfree : 2 * k + 3 ≤ x.freePages.length) :
    path x.pae (x.calls[k].1 / pageSize) ∈ x.placed.map Prod.fst := by
  let plan := fun tables (c : ℕ × ℕ) => requests x.pae tables (c.1 / pageSize)
  have hlen := (length_foldl_requests x.pae (x.calls.take k) [[]]).2
  obtain ⟨-, hnext, hmem⟩ := requests_extends x.pae ((x.calls.take k).foldl plan [[]])
    (x.calls[k].1 / pageSize)
  obtain ⟨more, hmore⟩ : plan ((x.calls.take k).foldl plan [[]]) x.calls[k] <+: x.tables := by
    have hsplit : x.calls.take k ++ x.calls[k] :: x.calls.drop (k + 1) = x.calls := by
      rw [getElem_cons_drop, take_append_drop]
    have htables : x.tables = (x.calls.drop (k + 1)).foldl plan
        (plan ((x.calls.take k).foldl plan [[]]) x.calls[k]) := by
      rw [← foldl_cons, ← foldl_append, hsplit]
      rfl
    rw [htables]
    exact (length_foldl_requests _ _ _).1
  obtain ⟨j, hj, hat⟩ := mem_iff_getElem.mp hmem
  have hjfree : j < x.freePages.length := by
    rw [length_take] at hlen
    change j < (plan ((x.calls.take k).foldl plan [[]]) x.calls[k]).length at hj
    change (plan ((x.calls.take k).foldl plan [[]]) x.calls[k]).length ≤ _ at hnext
    change ((x.calls.take k).foldl plan [[]]).length ≤ 1 + _ at hlen
    omega
  refine mem_map.mpr ⟨(_, x.freePages[j]), ?_, hat⟩
  rw [InitInput.placed, ← hmore, mem_iff_getElem]
  refine ⟨j, ?_, ?_⟩
  · rw [length_zip, length_append]
    exact lt_min (hj.trans_le (Nat.le_add_right _ _)) hjfree
  · rw [getElem_zip, getElem_append_left hj]

def busyPmm : State := ⟨fun i => if i < 136 then 0xFFFFFFFF#32 else 0#32, 16384, 4352⟩

theorem isSet_busyPmm (b : ℕ) : busyPmm.isSet b = decide (b < 4352) := by
  have hones : ∀ k < 32, (0xFFFFFFFF#32).getLsbD k = true := by decide
  have hmod : b % 32 < 32 := mod_lt b (by norm_num)
  unfold State.isSet busyPmm
  dsimp only
  split_ifs with hlow
  · rw [hones _ hmod, eq_comm, decide_eq_true_iff]
    omega
  · rw [BitVec.getLsbD_zero, eq_comm, decide_eq_false_iff_not]
    omega

theorem wellCounted_busyPmm : WellCounted busyPmm := by
  refine ⟨?_, by decide⟩
  have hset : usedSet busyPmm = Finset.range 4352 := by
    ext b
    rw [usedSet, Finset.mem_filter, Finset.mem_range, Finset.mem_range, isSet_busyPmm,
      decide_eq_true_iff]
    change b < 16384 ∧ b < 4352 ↔ b < 4352
    omega
  rw [hset, Finset.card_range]
  rfl

theorem freePages_of_low {pmm : State} {n m : ℕ} (hset : ∀ b, pmm.isSet b = decide (b < n))
    (hmax : pmm.maxBlocks = n + m) : freePages pmm = (List.range m).map (n + ·) := by
  rw [freePages, hmax, List.range_add, filter_append]
  rw [filter_eq_nil_iff.mpr, filter_eq_self.mpr, nil_append]
  · intro b hb
    obtain ⟨j, -, rfl⟩ := mem_map.mp hb
    simp [hset]
  · intro b hb
    simpa [hset] using hb

def busyInput : InitInput :=
  ⟨true, 0x4000000#32, 0x200000#32, 0x240000#32, none, fun _ _ => 0, busyPmm⟩

theorem vmmInit_of_start {x : InitInput} {s₀ : Paging}
    (hs₀ : startPaging x.cpuHasPae x.mem x.pmm = some s₀) (hsize : x.mappedSize ≤ 0xFFFFF000)
    (hmbi : x.mbi = none) :
    vmmInit x =
      .paged (mapCalls s₀ (identityCalls x.mappedSize x.uStart x.uEnd x.bitmapSize)) := by
  unfold vmmInit
  rw [hs₀, hmbi]
  exact if_neg (not_lt.mpr hsize)

theorem freePages_busyPmm :
    freePages busyInput.pmm = 4352 :: (List.range 12031).map fun j => 4352 + (j + 1) := by
  change freePages busyPmm = _
  rw [freePages_of_low (m := 12031 + 1) isSet_busyPmm rfl, List.range_succ_eq_map, map_cons,
    map_map]
  rfl

theorem freePages_busyInput :
    busyInput.freePages = 4352 :: (List.range 12031).map fun j => 4352 + (j + 1) := by
  rw [InitInput.freePages, freePages_busyPmm]
  refine filter_eq_self.mpr fun b hb => ?_
  rcases mem_cons.mp hb with rfl | hb
  · rfl
  · obtain ⟨j, -, rfl⟩ := mem_map.mp hb
    simp

theorem mappedSize_busyInput : busyInput.mappedSize = 0x4000000 := by decide

/-- The table in which page 4352 is mapped gets one of the free pages. -/
theorem path_mem_busyInput : path busyInput.pae 4352 ∈ busyInput.placed.map Prod.fst := by
  have hlen : 4352 < busyInput.calls.length := by
    rw [InitInput.calls, identityCalls, mappedSize_busyInput, length_append, length_map,
      length_range]
    exact Nat.lt_add_right _ (by decide)
  have hmem := path_mem_placed hlen (by
    rw [freePages_busyInput, length_cons, length_map, length_range]
    decide)
  have hcall : busyInput.calls[4352].1 / pageSize = 4352 := by
    simp only [InitInput.calls, identityCalls, getElem_append_left, getElem_map, getElem_range,
      length_map, length_range, mappedSize_busyInput, Nat.reduceAdd, Nat.reduceDiv, Nat.reduceLT]
    decide
  rwa [hcall] at hmem

/-- The pointer table is the first free page, at 17 MiB, and the identity map opens it. -/
theorem pointer_table_exposed : ∃ s, vmmInit busyInput = .paged s ∧ ¬ TablesHidden s := by
  obtain ⟨s₀, hs₀⟩ : ∃ s₀, startPaging busyInput.cpuHasPae busyInput.mem busyInput.pmm =
      some s₀ := by
    unfold startPaging
    rw [allocBlock_of_free (by decide) freePages_busyPmm]
    exact ⟨_, if_pos ⟨rfl, by decide⟩⟩
  have hinit := vmmInit_of_start hs₀ (by rw [mappedSize_busyInput]; decide) rfl
  obtain ⟨hinv, hself⟩ := vmmInit_spec wellCounted_busyPmm hinit
  obtain ⟨htables, hmapped⟩ := vmmInit_placed wellCounted_busyPmm hinit
  have hopen : busyInput.UserPage 4352 :=
    .inr ⟨by rw [mappedSize_busyInput]; decide, .inr (by decide)⟩
  have hroot : 4352 ∈ busyInput.placed.map Prod.snd := by
    obtain ⟨more, hmore⟩ : [[]] <+: busyInput.tables := (length_foldl_requests _ _ _).1
    rw [InitInput.placed, ← hmore, freePages_busyInput]
    exact mem_cons_self
  have hpresent := (hmapped 4352 hopen).mpr path_mem_busyInput
  obtain ⟨hphys, huser⟩ := hself 4352 (by norm_num) hpresent
  exact ⟨_, hinit, fun hhidden => hhidden 4352 ((htables 4352).mpr hroot)
    ⟨4352, by norm_num, hpresent, huser.mpr hopen, hphys⟩⟩

end MicroK.Vmm
